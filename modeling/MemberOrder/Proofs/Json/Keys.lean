/-
  The code of the members of a JSON document.

  The key of a member is a string, with white space, comments and a colon between it and the value
  (`readDocument_keyed`). Typed anew the member has blanks there, and so it keeps its code
  (`retype_keeps_code`) unless its key goes on in them.
-/
import MemberOrder.Layout.Rules
import MemberOrder.Proofs.Layout.Labels
import MemberOrder.Proofs.Placement.Json
import MemberOrder.Proofs.Placement.Reading

namespace MemberOrder.Json

open Attachment Layout Lexeme Scanned

variable {t : Text}

/-! ## Keys -/

/-- The key of a slot is a string where no literal is open, up to `stop`, and its value stands after a
colon. -/
structure KeyStands (t : Text) (start stop valueAt : Nat) : Prop where
  boundary : Boundary .json t start
  opens : (scan .json t).masked[start]? = some '"'
  lt : start + 1 < stop
  closes : (scan .json t).masked[stop - 1]? = some '"'
  colon : ColonBetween (scan .json t).masked stop valueAt
  value : ∃ c, (scan .json t).masked[valueAt]? = some c ∧ Text.isSpace c = false

/-- The member of an object has a key, an element none. -/
def Labelled (t : Text) (isObject : Bool) (slot : Slot) (value : Tree) : Prop :=
  value.start ≤ value.stop ∧
    if isObject then KeyStands t slot.start slot.keyStop value.start else slot.start = value.start

mutual

/-- The members of a value and of the containers inside have their keys. -/
def Tree.Keyed (t : Text) : Tree → Prop
  | .scalar _ _ => True
  | .container isObject _ _ members => SlotsKeyed t isObject members

/-- Slots have their keys, and so have the members of their values. -/
def SlotsKeyed (t : Text) (isObject : Bool) : List (Slot × Tree) → Prop
  | [] => True
  | m :: rest => Labelled t isObject m.1 m.2 ∧ ValueKeyed t m ∧ SlotsKeyed t isObject rest

/-- The members of the value of a slot have their keys. -/
def ValueKeyed (t : Text) : Slot × Tree → Prop
  | (_, value) => value.Keyed t

end

theorem readKey_stands {close i keyStop valueAt : Nat} (hb : Boundary .json t i) (hclose : close < t.size)
    (hvalue : valueAt < close) (h : readKey (scan .json t) close i = .ok (keyStop, valueAt)) :
    KeyStands t i keyStop valueAt := by
  simp only [readKey] at h
  split at h
  · cases h
  · rename_i hquote
    rw [Bool.not_eq_true', Bool.not_eq_false] at hquote
    obtain ⟨-, -, h⟩ := bind_ok h
    obtain ⟨stop, hstop, h⟩ := bind_ok h
    split at h
    · cases h
    · rename_i hcolon
      rw [Bool.not_eq_true', Bool.not_eq_false, Text.hasAt_iff] at hcolon
      cases h
      have hsize : (scan .json t).nextCode ((scan .json t).nextCode keyStop close + 1) close <
          (scan .json t).masked.size := by
        rw [size_masked]
        omega
      simp only [stringStop] at hstop
      split at hstop
      · cases hstop
      · rename_i found hfound
        obtain ⟨hlt, -, hfound, -⟩ := Text.find?_some hfound
        split at hstop
        · cases hstop
        · cases hstop
          let colon := (scan .json t).nextCode (found + 1) close
          have hcode : (scan .json t).masked.testAt ((scan .json t).nextCode (colon + 1) close)
              Text.isSpace = false := Text.code_at_nextCode hvalue
          have hget := Array.getElem?_eq_getElem hsize
          rw [Text.testAt_of_getElem? hget] at hcode
          have hbetween : ColonBetween (scan .json t).masked (found + 1)
              ((scan .json t).nextCode (colon + 1) close) :=
            ⟨colon, Text.le_nextCode _ _ _, Text.le_nextCode _ _ _, hcolon,
              fun y h1 h2 => Text.space_before_nextCode h1 h2,
              fun y h1 h2 => Text.space_before_nextCode h1 h2⟩
          exact ⟨hb, Text.hasAt_iff.mp hquote, by omega, by rwa [Nat.add_sub_cancel, ← Text.standsAt_one],
            hbetween, _, hget, hcode⟩

/-- A reader of values finds them where it starts, with their keys. -/
def ReadsKeyed (t : Text) (value : Nat → Except Fault Tree) : Prop :=
  ∀ i tree, Boundary .json t i → value i = .ok tree →
    tree.start = i ∧ i ≤ tree.stop ∧ tree.Keyed t

theorem readMembers_keyed {isObject : Bool} {close : Nat} (hclose : close < t.size)
    {value : Nat → Except Fault Tree} (hvalue : ReadsKeyed t value) {fuel i : Nat}
    {ms : List (Slot × Tree)} (hb : Boundary .json t i)
    (h : readMembers (scan .json t) isObject close value fuel i = .ok ms) : SlotsKeyed t isObject ms := by
  induction fuel generalizing i ms with
  | zero =>
    cases h
    trivial
  | succ fuel ih =>
    by_cases hlt : i < close
    · obtain ⟨keyStop, valueAt, tree, hkey, hvalueAt, htree, h⟩ := readMembers_cases hlt h
      obtain ⟨hstart, hle, hkeyed⟩ := hvalue valueAt tree (readLabel_spec hb hkey).2 htree
      have hlabelled : ∀ comma, Labelled t isObject ⟨i, keyStop, comma⟩ tree := by
        intro comma
        refine ⟨hstart ▸ hle, ?_⟩
        cases isObject with
        | true =>
          rw [if_pos rfl, hstart]
          exact readKey_stands hb hclose hvalueAt hkey
        | false =>
          cases hkey
          rw [if_neg Bool.false_ne_true, hstart]
      rcases h with ⟨rest, -, hcomma, hrest, rfl⟩ | ⟨-, rfl⟩
      · have hbn := boundary_of_code (Text.hasAt_iff.mp hcomma) (by decide) (by decide) (by decide)
        exact ⟨hlabelled _, hkeyed, ih (hbn.nextCode quote_not_space close) hrest⟩
      · exact ⟨hlabelled _, hkeyed, trivial⟩
    · simp only [readMembers, if_neg hlt] at h
      cases h
      trivial

/-- The members of every value have their keys, by induction on the depth of containers. -/
theorem readValue_keyed (t : Text) (fuel : Nat) : ReadsKeyed t (readValue (scan .json t) fuel) := by
  induction fuel with
  | zero =>
    intro i tree hb h
    cases h
    exact ⟨rfl, Nat.le_refl i, trivial⟩
  | succ fuel ih =>
    intro i tree hb h
    simp only [readValue] at h
    split at h
    · rename_i hopen
      rw [Bool.or_eq_true, Text.hasAt_iff, Text.hasAt_iff] at hopen
      split at h
      · cases h
      · rename_i close hclose
        obtain ⟨ms, hms, h⟩ := bind_ok h
        cases h
        obtain ⟨hlt, hsize, -⟩ := Brackets.close?_some hclose
        have hb' : Boundary .json t (i + 1) := by
          rcases hopen with h | h <;> exact boundary_of_code h (by decide) (by decide) (by decide)
        refine ⟨rfl, Nat.le_succ_of_le (Nat.le_of_lt hlt), ?_⟩
        exact readMembers_keyed (size_masked .json t ▸ hsize) ih (hb'.nextCode quote_not_space close) hms
    · split at h
      · rename_i hquote
        obtain ⟨stop, hstop, h⟩ := bind_ok h
        cases h
        exact ⟨rfl, Nat.le_of_lt (stringStop_spec hb (Text.hasAt_iff.mp hquote) hstop).1, trivial⟩
      · obtain ⟨stop, hstop, h⟩ := bind_ok h
        cases h
        exact ⟨rfl, Nat.le_of_lt (plainStop_spec hstop).1, trivial⟩

/-! ## Records -/

/-- A member is what was made of a slot, comments, unit and block aside. -/
def Holds (t : Text) (m : Member) : Prop :=
  ∃ isObject index slot value, Labelled t isObject slot value ∧
    m.info.bare = (memberInfo (scan .json t) isObject index slot value [] [] []).bare

mutual

/-- The members of a container are made of its slots. -/
theorem containerMembers_held : (tree : Tree) → tree.Keyed t → (pool : List Comment) →
    EachThroughout (Holds t) (containerMembers (scan .json t) tree pool).1.1
  | .scalar a b, _, _ => trivial
  | .container isObject a b members, h, pool => by
    simp only [containerMembers, bind_apply, pure_apply]
    exact membersFrom_held isObject (b - 1) members h 0 (a + 1) pool

theorem membersFrom_held (isObject : Bool) (close : Nat) : (members : List (Slot × Tree)) →
    SlotsKeyed t isObject members → (index floor : Nat) → (pool : List Comment) →
    EachThroughout (Holds t) (membersFrom (scan .json t) isObject close members index floor pool).1
  | [], _, _, _, _ => trivial
  | m :: rest, h, index, floor, pool => by
    obtain ⟨h1, h2, h3⟩ := h
    have hvalue := value_held m h2
    have hrest := membersFrom_held isObject close rest h3 (index + 1)
    obtain ⟨slot, value⟩ := m
    simp only [membersFrom, bind_apply, pure_apply]
    refine ⟨?_, hrest _ _⟩
    rw [memberOf_eq]
    cases value with
    | scalar a b => exact ⟨isObject, index, slot, _, h1, rfl⟩
    | container nested a b inner =>
      exact ⟨⟨isObject, index, slot, _, h1, rfl⟩, hvalue _⟩

theorem value_held : (m : Slot × Tree) → ValueKeyed t m → (pool : List Comment) →
    EachThroughout (Holds t) (containerMembers (scan .json t) m.2 pool).1.1
  | (_, value), h, pool => containerMembers_held value h pool

end

/-- The containers of a document have members with their keys. -/
theorem readDocument_keyed {tree : Tree} (h : readDocument (scan .json t) = .ok (some tree)) :
    tree.Keyed t := by
  simp only [readDocument] at h
  split at h
  · cases h
  · split at h
    · cases h
    · obtain ⟨value, hvalue, h⟩ := bind_ok h
      split at h
      · cases h
      · cases h
        have hb : Boundary .json t ((scan .json t).nextCodeToEnd 0) :=
          (boundary_zero .json t).nextCode quote_not_space (scan .json t).masked.size
        generalize (scan .json t).nextCodeToEnd 0 = start at hb hvalue
        generalize (scan .json t).masked.size + 1 = fuel at hvalue
        exact (readValue_keyed t fuel start tree hb hvalue).2.2

/-- The members of a document are made of the slots of its containers. -/
theorem read_held (fileType : FileType) (t : Text) :
    ∀ e ∈ (read fileType t).entities, EachThroughout (Holds t) e.members := by
  have hroot (tree : Tree) (h : tree.Keyed t) :
      EachThroughout (Holds t) (rootEntity (scan .json t) fileType tree).members :=
    containerMembers_held tree h (scan .json t).comments
  unfold read
  dsimp only
  split
  · exact fun e he => absurd he List.not_mem_nil
  · exact fun e he => absurd he List.not_mem_nil
  · rename_i tree htree
    exact List.forall_mem_singleton.mpr (hroot tree (readDocument_keyed htree))

/-! ## Members typed anew -/

/-- What is typed anew can be read: a key ends with its quote. -/
def Legible (i : MemberInfo) : Prop :=
  i.value.text? ≠ some i.fullText → Sealed .json ('"' :: i.name.toList ++ ['"'])

/-- A key is its name between quotes. -/
theorem KeyStands.slice {start stop valueAt : Nat} (h : KeyStands t start stop valueAt) :
    t.slice start stop = '"' :: t.slice (start + 1) (stop - 1) ++ ['"'] := by
  have hlt := h.lt
  have hfirst := Text.slice_one (source_of_masked h.opens (by decide) (by decide))
  have hlast := Text.slice_one (source_of_masked h.closes (by decide) (by decide))
  rw [Nat.sub_add_cancel (by omega)] at hlast
  rw [← Text.slice_append t (Nat.le_succ start) (Nat.le_of_lt hlt), hfirst,
    ← Text.slice_append t (show start + 1 ≤ stop - 1 by omega) (Nat.sub_le stop 1), hlast]
  rfl

/-- The code of a member is that of its key, a colon, and that of its value. -/
theorem KeyStands.packedCode {start stop valueAt b : Nat} (h : KeyStands t start stop valueAt)
    (hsealed : Sealed .json (t.slice start stop)) (hb : valueAt ≤ b) :
    packedCode .json (t.slice start b) =
      packedCode .json (t.slice start stop) ++ ':' :: packedCode .json (t.slice valueAt b) := by
  obtain ⟨c, hc, hspace⟩ := h.value
  have hlt := h.lt
  have hopens := Text.lt_size_of_getElem? (source_of_masked h.opens (by decide) (by decide))
  have hcloses := Text.lt_size_of_getElem? (source_of_masked h.closes (by decide) (by decide))
  have hstops : Stops .json t start := h.boundary.stops (Nat.le_of_lt hopens) (Or.inl rfl) (by
    rw [Text.testAt_of_getElem? h.opens]
    decide)
  exact packedCode_entry (hsealed.stops hstops (by omega) (by omega) rfl) (hsealed.anywhere) (by omega)
    (by decide) h.colon hc hspace hb

/-- Typed anew, a member keeps its code. -/
theorem retype_keeps_code {x : Member} (hx : Holds t x) (hlegible : Legible x.info) (o : Options)
    (width : Nat) :
    packedCode .json (Rules.json.retype o x width).toList = packedCode .json x.info.fullText.toList := by
  by_cases hverbatim : x.info.value.text? = some x.info.fullText
  · rw [show Rules.json.retype o x width = x.info.fullText by simp [Rules.json, hverbatim]]
  · obtain ⟨isObject, index, slot, value, ⟨hle, hlabelled⟩, hinfo⟩ := hx
    have hvalue : x.info.value = .text (t.cut value.start value.stop) := by
      cases value <;> exact (congrArg MemberInfo.value hinfo :)
    have htext : x.info.fullText = t.cut slot.start value.stop := by
      cases value <;> exact (congrArg MemberInfo.fullText hinfo :)
    cases isObject with
    | false =>
      -- an element is its value
      rw [hvalue, htext, show slot.start = value.start from hlabelled] at hverbatim
      exact absurd rfl hverbatim
    | true =>
      have hname : x.info.name = t.cut (slot.start + 1) (slot.keyStop - 1) := by
        cases value <;> exact (congrArg MemberInfo.name hinfo :)
      replace hlabelled : KeyStands t slot.start slot.keyStop value.start := hlabelled
      have hkey : ("\"" ++ x.info.name ++ "\"").toList = t.slice slot.start slot.keyStop := by
        rw [hlabelled.slice, hname, String.toList_append, String.toList_append, Text.cut,
          String.toList_ofList, String.toList_ofList]
        rfl
      have hsealed : Sealed .json (t.slice slot.start slot.keyStop) := by
        have := hlegible hverbatim
        rwa [hname, Text.cut, String.toList_ofList, ← hlabelled.slice] at this
      have hdisplay : x.info.value.display.toList = t.slice value.start value.stop := by
        rw [hvalue, Value.display, Text.cut, String.toList_ofList]
      have hplain : ∀ c ∈ [' ', ':'], Lexeme.Plain .json c := by
        simp only [List.forall_mem_cons, Lexeme.Plain]
        decide
      have hretype : Rules.json.retype o x width =
          nameAndValue o ("\"" ++ x.info.name ++ "\"" ++ "") x.info.value.display width ":" := by
        rw [String.append_empty]
        simp only [Rules.json, beq_iff_eq, if_neg hverbatim]
        rfl
      rw [hretype, packedCode_nameAndValue hplain o (hkey ▸ hsealed.anywhere)
          (fun c hc => absurd hc (by simp)), hkey, hdisplay, htext, Text.cut, String.toList_ofList,
        String.toList_ofList, hlabelled.packedCode hsealed hle]
      rfl

end MemberOrder.Json
