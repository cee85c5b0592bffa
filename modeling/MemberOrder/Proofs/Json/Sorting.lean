/-
  Sorting the members of documents.

  Members that were read from a document are no spreads and have names, so a level of them is arranged
  as a whole. What sorting gives stands for an entry that agrees with the one before, and without
  natural sorting it is `Settled`: the members of every object that was sorted are in turn
  (`sortInside_sorts`, `sortMembers_sorts`). Members that stand for a settled entry are sorted to
  themselves (`sortInside_self`, `sortMembers_self`), whatever text they were read from, if arrays are
  left alone or have their elements in the order of their texts (`inOrderInside`).
-/
import MemberOrder.Proofs.Json.Retyping
import MemberOrder.Proofs.Order.Comparing
import MemberOrder.Proofs.Order.Sorters

/-!
## What the place of a member depends on

Members are grouped by what their values look like, so their places depend on texts that change when
a container is written anew. They depend only on whether certain words occur there, and a word that
no structural character interrupts occurs in the text of an entry exactly when it occurs in one of
its keys or scalars (`Spells.contains_eq`). So all members that stand for entries that agree are
ordered alike (`Read.alike`, `Entry.Agrees.standIn_eq`).
-/

namespace MemberOrder.Json

open MemberOrder.Order

/-! ## Occurrences -/

theorem contains_iff_infix {needle cs : List Char} :
    Text.contains needle cs = true ↔ needle <:+: cs := by
  induction cs with
  | nil => rw [Text.contains, List.isEmpty_iff, List.infix_nil]
  | cons c rest ih =>
    rw [Text.contains, Bool.or_eq_true, List.isPrefixOf_iff_prefix, ih, List.infix_cons_iff]

/-- What starts at a character and does not have it is empty. -/
theorem eq_nil_of_prefix_cons {needle b : List Char} {c : Char} (hc : c ∉ needle)
    (h : needle <+: c :: b) : needle = [] := by
  cases needle with
  | nil => rfl
  | cons d rest =>
    obtain ⟨rfl, -⟩ := List.cons_prefix_cons.mp h
    exact absurd List.mem_cons_self hc

/-- What does not have a character occurs on one of its sides. -/
theorem contains_around {needle : List Char} {c : Char} (hc : c ∉ needle) (a b : List Char) :
    Text.contains needle (a ++ c :: b) = (Text.contains needle a || Text.contains needle b) := by
  rw [Bool.eq_iff_iff, Bool.or_eq_true, contains_iff_infix, contains_iff_infix, contains_iff_infix]
  constructor
  · intro h
    rcases List.infix_append_iff.mp h with h | h | ⟨front, back, rfl, hfront, hback⟩
    · exact Or.inl h
    · rcases List.infix_cons_iff.mp h with h | h
      · rw [eq_nil_of_prefix_cons hc h]
        exact Or.inl (List.nil_infix)
      · exact Or.inr h
    · have hnil := eq_nil_of_prefix_cons (fun hmem => hc (List.mem_append_right _ hmem)) hback
      rw [hnil, List.append_nil]
      exact Or.inl hfront.isInfix
  · rintro (h | h)
    · exact h.trans (List.prefix_append _ _).isInfix
    · exact h.trans ((List.suffix_cons c b).trans (List.suffix_append a _)).isInfix

/-- The characters that structure a text: blanks, quotes and punctuation. -/
def structural : List Char := blanks ++ ['"', ':', ',', '{', '}', '[', ']']

/-- A word that no structural character interrupts. -/
def Uninterrupted (needle : List Char) : Prop := needle ≠ [] ∧ ∀ c ∈ structural, c ∉ needle

section Occurrences

variable {needle : List Char} (hn : Uninterrupted needle)
include hn

theorem Uninterrupted.contains_nil : Text.contains needle [] = false :=
  Bool.eq_false_iff.mpr fun h => hn.1 (List.isEmpty_iff.mp h)

theorem Uninterrupted.contains_around {c : Char} (hc : c ∈ structural) (a b : List Char) :
    Text.contains needle (a ++ c :: b) = (Text.contains needle a || Text.contains needle b) :=
  Json.contains_around (hn.2 c hc) a b

theorem Uninterrupted.contains_cons {c : Char} (hc : c ∈ structural) (cs : List Char) :
    Text.contains needle (c :: cs) = Text.contains needle cs := by
  have h := hn.contains_around hc [] cs
  rwa [hn.contains_nil, Bool.false_or] at h

theorem Uninterrupted.blank_append {a : List Char} (ha : Blank a) (cs : List Char) :
    Text.contains needle (a ++ cs) = Text.contains needle cs := by
  induction a with
  | nil => rfl
  | cons c rest ih =>
    have hc : c ∈ structural := List.mem_append_left _ (ha c List.mem_cons_self)
    rw [List.cons_append, hn.contains_cons hc]
    exact ih fun d hd => ha d (List.mem_cons_of_mem c hd)

theorem Uninterrupted.append_blank {b : List Char} (hb : Blank b) (cs : List Char) :
    Text.contains needle (cs ++ b) = Text.contains needle cs := by
  cases b with
  | nil => rw [List.append_nil]
  | cons c rest =>
    have hc : c ∈ structural := List.mem_append_left _ (hb c List.mem_cons_self)
    have hrest := hn.blank_append (fun d hd => hb d (List.mem_cons_of_mem c hd)) []
    rw [List.append_nil, hn.contains_nil] at hrest
    rw [hn.contains_around hc, hrest, Bool.or_false]

theorem Label.contains_eq {inObject : Bool} {key label : List Char} (h : Label inObject key label)
    (text : List Char) :
    Text.contains needle (label ++ text) = (Text.contains needle key || Text.contains needle text) := by
  cases h with
  | element => rw [hn.contains_nil, Bool.false_or, List.nil_append]
  | member hkey ha hb =>
    rename_i a b
    have hassoc : '"' :: key ++ '"' :: a ++ ':' :: b ++ text =
        '"' :: (key ++ '"' :: (a ++ ':' :: (b ++ text))) := by simp
    rw [hassoc, hn.contains_cons (by decide), hn.contains_around (by decide), hn.blank_append ha,
      hn.contains_cons (by decide), hn.blank_append hb]

theorem Row.contains_eq {trailing : Bool} {texts : List (List Char)} {body : List Char}
    (h : Row trailing texts body) : Text.contains needle body = texts.any (Text.contains needle) := by
  induction h with
  | nil ha =>
    have hblank := hn.blank_append ha []
    rwa [List.append_nil, hn.contains_nil] at hblank
  | last ha hb => rw [hn.blank_append ha, hn.append_blank hb, List.any_cons, List.any_nil, Bool.or_false]
  | cons ha hb hxs hbody ih =>
    rename_i a x b body xs
    have hassoc : x ++ (b ++ ',' :: body) = (x ++ b) ++ ',' :: body := by simp
    rw [hn.blank_append ha, hassoc, hn.contains_around (by decide), hn.append_blank hb, ih,
      List.any_cons]

theorem contains_bracketed (isObject : Bool) (body : List Char) :
    Text.contains needle (opener isObject :: body ++ [closer isObject]) = Text.contains needle body := by
  have hopener : opener isObject ∈ structural := by cases isObject <;> decide
  have hcloser : closer isObject ∈ structural := by cases isObject <;> decide
  rw [List.cons_append, hn.contains_cons hopener, hn.contains_around hcloser, hn.contains_nil,
    Bool.or_false]

end Occurrences

/-! ## Entries -/

/-- The key of an entry. -/
def Entry.key : Entry → List Char
  | .scalar key _ | .container key _ _ => key

/-- Whether an entry is an object or an array. -/
def Entry.isContainer : Entry → Bool
  | .scalar _ _ => false
  | .container _ _ _ => true

mutual

/-- Whether a word occurs in a value: in its text, or in a key or a value inside it. -/
def Entry.mentions (needle : List Char) : Entry → Bool
  | .scalar _ text => Text.contains needle text
  | .container _ _ entries => anyMentions needle entries

/-- Whether a word occurs in one of some entries. -/
def anyMentions (needle : List Char) : List Entry → Bool
  | [] => false
  | e :: rest => (Text.contains needle e.key || e.mentions needle) || anyMentions needle rest

end

theorem anyMentions_eq_any (needle : List Char) (es : List Entry) :
    anyMentions needle es = es.any fun e => Text.contains needle e.key || e.mentions needle := by
  induction es with
  | nil => rfl
  | cons e rest ih => rw [anyMentions, ih, List.any_cons]

theorem any_congr_mem {α : Type} {p q : α → Bool} {xs : List α} (h : ∀ x ∈ xs, p x = q x) :
    xs.any p = xs.any q := by
  rw [Bool.eq_iff_iff, List.any_eq_true, List.any_eq_true]
  exact exists_congr fun x => and_congr_right fun hx => by rw [h x hx]

/-- A word occurs in the text of an entry exactly when it occurs in the entry. -/
theorem Spells.contains_eq {needle : List Char} (hn : Uninterrupted needle) {trailing inObject : Bool}
    {e : Entry} {cs : List Char} (h : Spells trailing inObject e cs) :
    Text.contains needle cs = (Text.contains needle e.key || e.mentions needle) := by
  induction h with
  | scalar hlabel htext => exact hlabel.contains_eq hn _
  | container isObject items hlabel hitems hbody ih =>
    rw [hlabel.contains_eq hn, contains_bracketed hn, hbody.contains_eq hn, Entry.mentions,
      anyMentions_eq_any, List.any_map, List.any_map]
    exact congrArg _ (any_congr_mem fun x hx => ih x hx)

mutual

/-- Entries that agree have the same key and mention the same words. -/
theorem Entry.Agrees.mentions_eq {ordered : Bool} {e e' : Entry} (h : e.Agrees ordered e')
    (needle : List Char) : e'.key = e.key ∧ e'.mentions needle = e.mentions needle := by
  cases h with
  | scalar key text => exact ⟨rfl, rfl⟩
  | container key isObject hperm hordered heach =>
    refine ⟨rfl, ?_⟩
    rw [Entry.mentions, Entry.mentions, heach.anyMentions_eq needle, anyMentions_eq_any,
      anyMentions_eq_any, hperm.any_eq]

theorem EachAgrees.anyMentions_eq {ordered : Bool} {es es' : List Entry} (h : EachAgrees ordered es es')
    (needle : List Char) : anyMentions needle es' = anyMentions needle es := by
  cases h with
  | nil => rfl
  | cons h hrest =>
    obtain ⟨hkey, hmentions⟩ := h.mentions_eq needle
    rw [anyMentions, anyMentions, hkey, hmentions, hrest.anyMentions_eq needle]

end

theorem Entry.Agrees.isContainer_eq {ordered : Bool} {e e' : Entry} (h : e.Agrees ordered e') :
    e'.isContainer = e.isContainer := by
  cases h <;> rfl

/-! ## Members that stand for an entry -/

/-- The words by which a value looks like a function. -/
def functionWords : List String := ["=>", "function", "()"]

/-- Whether the member of an object looks like a function. -/
def Entry.looksLikeMethod (e : Entry) : Bool :=
  functionWords.any (fun word => e.mentions word.toList) || e.key.contains '('

/-- A record that is ordered like all members that stand for an entry. -/
def Entry.standIn (e : Entry) : MemberInfo where
  name := String.ofList e.key
  value := .text (if e.looksLikeMethod then "()" else "")
  hasNestedObject := e.isContainer

theorem Entry.Agrees.standIn_eq {ordered : Bool} {e e' : Entry} (h : e.Agrees ordered e') :
    e'.standIn = e.standIn := by
  have hmentions : ∀ needle, e'.mentions needle = e.mentions needle := fun needle =>
    (h.mentions_eq needle).2
  have hkey : e'.key = e.key := (h.mentions_eq []).1
  have hlooks : e'.looksLikeMethod = e.looksLikeMethod := by
    simp only [Entry.looksLikeMethod, hmentions, hkey]
  rw [Entry.standIn, Entry.standIn, hlooks, hkey, h.isContainer_eq]

theorem uninterrupted_functionWords : ∀ word ∈ functionWords, Uninterrupted word.toList := by
  unfold Uninterrupted
  decide

theorem ofMember_property {i : MemberInfo} (hkind : i.kind = .property) {value : List Char}
    (hvalue : i.value = .text (String.ofList value)) :
    TypeGroup.ofMember i = if functionWords.any (fun word => Text.contains word.toList value) ||
      i.name.toList.contains '(' then .method else .property := by
  unfold TypeGroup.ofMember
  rw [hkind, hvalue]
  simp [functionWords, Text.occursIn, Value.text?, Bool.or_assoc]

theorem Entry.ofMember_standIn (e : Entry) :
    TypeGroup.ofMember e.standIn = if e.looksLikeMethod then .method else .property := by
  cases hlooks : e.looksLikeMethod with
  | true =>
    have hvalue : e.standIn.value = .text (String.ofList ['(', ')']) := by
      rw [Entry.standIn, hlooks]
      rfl
    have hwords : functionWords.any (fun word => Text.contains word.toList ['(', ')']) = true := by
      decide
    rw [ofMember_property rfl hvalue, hwords]
    rfl
  | false =>
    have hvalue : e.standIn.value = .text (String.ofList []) := by
      rw [Entry.standIn, hlooks]
      rfl
    have hwords : functionWords.any (fun word => Text.contains word.toList []) = false := by
      decide
    have hname : e.standIn.name.toList.contains '(' = false := by
      rw [Entry.looksLikeMethod, Bool.or_eq_false_iff] at hlooks
      rw [Entry.standIn, String.toList_ofList]
      exact hlooks.2
    rw [ofMember_property rfl hvalue, hwords, hname]
    rfl

theorem Entry.isComplex_standIn (e : Entry) : isComplex e.standIn = e.isContainer := by
  unfold isComplex
  cases hcontainer : e.isContainer with
  | true => simp [Entry.standIn, hcontainer]
  | false =>
    cases hlooks : e.looksLikeMethod <;> simp only [Entry.standIn, hcontainer, hlooks] <;> decide

/-- Scalars are not complex. -/
theorem Scalar.isComplex_eq {text : List Char} (h : Scalar text) {i : MemberInfo}
    (hnested : i.hasNestedObject = false) (hvalue : i.value = .text (String.ofList text)) :
    isComplex i = false := by
  have htrim : Text.trim text = text := by
    rw [Text.trim, h.solid.trimLeft, h.solid.trimRight]
  have hhead : ∃ c rest, text = c :: rest ∧ c ≠ '{' ∧ c ≠ '[' := by
    obtain ⟨inside, -, rfl⟩ | hbare := h.cases_bare
    · exact ⟨'"', _, rfl, by decide, by decide⟩
    · have hchars : ∀ c ∈ bareChars, c ≠ '{' ∧ c ≠ '[' := by decide
      cases text with
      | nil => exact absurd rfl hbare.1
      | cons c rest => exact ⟨c, rest, rfl, hchars c (hbare.2 c List.mem_cons_self)⟩
  obtain ⟨c, rest, rfl, hbrace, hbracket⟩ := hhead
  unfold isComplex
  rw [hnested, hvalue]
  simp only [Value.isCollection, Value.text?, Option.map_some, String.toList_ofList, htrim,
    Bool.or_self, Bool.false_eq_true, if_false]
  split
  · rename_i heq
    cases heq
    exact absurd rfl hbrace
  · rename_i heq
    cases heq
    exact absurd rfl hbracket
  · rfl

/-- A member of an object is ordered like every other one that stands for its entry. -/
theorem Read.alike {x : Layout.Excerpt} {trailing : Bool} {m : Member} (h : Read x trailing true m) :
    Alike m.info (m.entry true).standIn := by
  have hkey : (m.entry true).key = m.info.name.toList := by
    cases m <;> rfl
  have hvalue : ∃ value, m.info.value = .text (String.ofList value) ∧
      ∀ needle, Uninterrupted needle →
        Text.contains needle value = (m.entry true).mentions needle := by
    cases h with
    | leaf h hnested hvalue =>
      refine ⟨_, h.value_eq, fun needle hn => ?_⟩
      rw [Member.entry, h.display, Entry.mentions]
    | group isObject h hnested hcontainer hbody hopen hclose hvalue hrow hchildren =>
      refine ⟨_, h.value_eq, fun needle hn => ?_⟩
      rw [entry_group hcontainer, hvalue.contains_eq hn]
      show (Text.contains needle [] || _) = _
      rw [hn.contains_nil, Bool.false_or]
      rfl
  obtain ⟨value, hvalue, hmentions⟩ := hvalue
  obtain ⟨span, unit, label, value', hrecorded, -⟩ := h.recorded
  refine ⟨?_, hrecorded.required, ?_, ?_⟩
  · rw [Entry.standIn, hkey, String.ofList_toList]
  · have hwords : functionWords.any (fun word => Text.contains word.toList value) =
        functionWords.any fun word => (m.entry true).mentions word.toList :=
      any_congr_mem fun word hword => hmentions _ (uninterrupted_functionWords word hword)
    rw [Entry.ofMember_standIn, ofMember_property hrecorded.kind_eq hvalue, Entry.looksLikeMethod,
      hkey, hwords]
  · rw [Entry.isComplex_standIn]
    cases h with
    | leaf h hnested hscalar => exact hscalar.isComplex_eq hnested h.value_eq
    | group isObject h hnested =>
      unfold isComplex
      rw [show (Member.group _ _).info.hasNestedObject = true from hnested]
      rfl

end MemberOrder.Json

/-! ## Sorting the members of documents -/

namespace MemberOrder.Json

open MemberOrder.Order MemberOrder.Sorter Std

/-! ## Agreement -/

mutual

theorem Entry.Agrees.refl (ordered : Bool) (e : Entry) : e.Agrees ordered e := by
  cases e with
  | scalar key text => exact .scalar key text
  | container key isObject es =>
    exact .container key isObject (.refl es) (fun _ _ => rfl) (EachAgrees.refl ordered es)

theorem EachAgrees.refl (ordered : Bool) (es : List Entry) : EachAgrees ordered es es := by
  cases es with
  | nil => exact .nil
  | cons e rest => exact .cons (Entry.Agrees.refl ordered e) (EachAgrees.refl ordered rest)

end

theorem EachAgrees.map_standIn {ordered : Bool} {es es' : List Entry} (h : EachAgrees ordered es es') :
    es'.map Entry.standIn = es.map Entry.standIn := by
  induction es generalizing es' with
  | nil =>
    cases h
    rfl
  | cons e rest ih =>
    cases h with
    | cons he hrest => rw [List.map_cons, List.map_cons, he.standIn_eq, ih hrest]

/-! ## Settled entries -/

/-- The members of an object, as entries, are in turn where keys are sorted. -/
def KeysInTurn (o : Options) (isObject : Bool) (es : List Entry) : Prop :=
  isObject = true → o.sortObjectKeys = true → (es.map Entry.standIn).Pairwise (InTurn o)

/-- The members of every object in an entry are in turn. -/
inductive Entry.Settled (o : Options) : Entry → Prop
  | scalar (key text : List Char) : Entry.Settled o (.scalar key text)
  | container (key : List Char) (isObject : Bool) {es : List Entry} (hkeys : KeysInTurn o isObject es)
      (h : ∀ e ∈ es, e.Settled o) : Entry.Settled o (.container key isObject es)

/-- The entries of a root container are in turn, and settled where nested containers are sorted. -/
structure SettledRoot (o : Options) (isObject : Bool) (es : List Entry) : Prop where
  keys : KeysInTurn o isObject es
  inside : o.sortNestedObjects = true → ∀ e ∈ es, e.Settled o

/-! ## Elements in order -/

/-- The order of the elements of an array: by their texts, in the direction of the options. -/
def elementOrder (o : Options) (a b : MemberInfo) : Ordering :=
  directed o (comparePlain (foldedName o ((EntryRules.json o).elementKey a))
    (foldedName o ((EntryRules.json o).elementKey b)))

instance elementOrder_trans (o : Options) : TransCmp (elementOrder o) :=
  have := transCmp_on comparePlain fun i => foldedName o ((EntryRules.json o).elementKey i)
  directed_trans o

/-- Whether elements stand in the order of their texts; members of an object need not, and where arrays
are left alone none need to. -/
def elementsInOrder (o : Options) (isObject : Bool) (ms : List Member) : Bool :=
  isObject || o.preserveArrayOrder ||
    decide (ms.Pairwise fun a b => (elementOrder o a.info b.info).isLE = true)

mutual

/-- Whether in every array inside a member the elements stand in the order of their texts. -/
def inOrderInside (o : Options) : Member → Bool
  | .leaf _ => true
  | .group i children =>
    elementsInOrder o (i.container == .braces) children && eachInOrderInside o children

/-- Whether in every array inside some members the elements stand in the order of their texts. -/
def eachInOrderInside (o : Options) : List Member → Bool
  | [] => true
  | m :: rest => inOrderInside o m && eachInOrderInside o rest

end

theorem eachInOrderInside_iff {o : Options} {ms : List Member} :
    eachInOrderInside o ms = true ↔ ∀ m ∈ ms, inOrderInside o m = true := by
  induction ms with
  | nil => simp [eachInOrderInside]
  | cons m rest ih => simp [eachInOrderInside, ih]

theorem inOrderInside_group {o : Options} {isObject : Bool} {i : MemberInfo} {children : List Member}
    (h : i.container = bracketsOf isObject) : inOrderInside o (.group i children) = true ↔
      elementsInOrder o isObject children = true ∧ ∀ m ∈ children, inOrderInside o m = true := by
  rw [inOrderInside, h, bracketsOf_braces, Bool.and_eq_true, eachInOrderInside_iff]

/-- Whether the members of a root container are in order where they are sorted. -/
def rootInOrder (o : Options) (isObject : Bool) (ms : List Member) : Bool :=
  elementsInOrder o isObject ms && (!o.sortNestedObjects || eachInOrderInside o ms)

theorem rootInOrder_iff {o : Options} {isObject : Bool} {ms : List Member} :
    rootInOrder o isObject ms = true ↔ elementsInOrder o isObject ms = true ∧
      (o.sortNestedObjects = true → ∀ m ∈ ms, inOrderInside o m = true) := by
  rw [rootInOrder, Bool.and_eq_true, Bool.or_eq_true, Bool.not_eq_true', eachInOrderInside_iff]
  cases o.sortNestedObjects <;> simp

theorem elementsInOrder_of_preserved {o : Options} (h : o.preserveArrayOrder = true)
    (isObject : Bool) (ms : List Member) : elementsInOrder o isObject ms = true := by
  rw [elementsInOrder, h, Bool.or_true, Bool.true_or]

mutual

theorem inOrderInside_of_preserved {o : Options} (h : o.preserveArrayOrder = true) (m : Member) :
    inOrderInside o m = true := by
  cases m with
  | leaf i => rfl
  | group i children =>
    rw [inOrderInside, elementsInOrder_of_preserved h, eachInOrderInside_of_preserved h children]
    rfl

theorem eachInOrderInside_of_preserved {o : Options} (h : o.preserveArrayOrder = true)
    (ms : List Member) : eachInOrderInside o ms = true := by
  cases ms with
  | nil => rfl
  | cons m rest =>
    rw [eachInOrderInside, inOrderInside_of_preserved h m, eachInOrderInside_of_preserved h rest]
    rfl

end

/-- Where arrays are left alone there is no order to keep. -/
theorem rootInOrder_of_preserved {o : Options} (h : o.preserveArrayOrder = true) (isObject : Bool)
    (ms : List Member) : rootInOrder o isObject ms = true := by
  rw [rootInOrder, elementsInOrder_of_preserved h, eachInOrderInside_of_preserved h, Bool.or_true]
  rfl

/-! ## Levels -/

/-- The kind of a container, by which its members are arranged. -/
def kindOf (isObject : Bool) : EntityKind := if isObject then .jsonObject else .jsonArray

theorem isArray_kindOf (isObject : Bool) : (kindOf isObject).isArray = !isObject := by
  cases isObject <;> rfl

theorem childContext_eq {isObject : Bool} {i : MemberInfo} (h : i.container = bracketsOf isObject) :
    Sorter.json.childContext i = some (kindOf isObject) := by
  unfold childContext
  rw [h]
  cases isObject <;> rfl

theorem refill_unspread {α : Type} {view : α → Member} {items arranged : List α}
    (h : ∀ x ∈ items, (view x).info.isSpread = false) (hlength : arranged.length = items.length) :
    refill view items arranged = arranged := by
  induction items generalizing arranged with
  | nil => exact (List.eq_nil_of_length_eq_zero hlength).symm
  | cons x rest ih =>
    cases arranged with
    | nil => cases hlength
    | cons y others =>
      rw [refill, h x List.mem_cons_self, if_neg (by decide),
        ih (fun z hz => h z (List.mem_cons_of_mem x hz)) (Nat.succ.inj hlength)]

/-- Items without spreads are arranged as a whole. -/
theorem arrangeAround_unspread {α : Type} {o : Options} {isObject : Bool} {view : α → Member}
    {items : List α} (h : ∀ x ∈ items, (view x).info.isSpread = false) :
    Sorter.json.arrangeAround o (some (kindOf isObject)) view items =
      arrangeEntries o (.json o) (!isObject) view items := by
  have hall : (items.filter fun x => !(view x).info.isSpread) = items := by
    refine List.filter_eq_self.mpr fun x hx => ?_
    rw [h x hx]
    rfl
  have harrange : Sorter.json.arrange o (some (kindOf isObject)) view items =
      arrangeEntries o (.json o) (!isObject) view items := by
    rw [← isArray_kindOf]
    rfl
  unfold arrangeAround
  rw [hall, harrange]
  cases harranged : arrangeEntries o (.json o) (!isObject) view items with
  | error fault => rfl
  | ok arranged =>
    show Except.ok (refill view items arranged) = _
    rw [refill_unspread h (arrangeEntries_perm harranged).length_eq]

/-- The elements of an array are sorted by their texts. -/
theorem arrangeEntries_array {α : Type} {o : Options} (hplain : o.naturalSort = false)
    (hpreserve : o.preserveArrayOrder = false) (view : α → Member) (items : List α) :
    arrangeEntries o (.json o) true view items =
      .ok (stableSort (fun a b => (elementOrder o (view a).info (view b).info).isLE) items) := by
  simp only [arrangeEntries, sortBy, hpreserve, hplain, Bool.false_eq_true, if_false, if_true,
    compareNames_plain hplain, allows_ok]
  rfl

/-- Elements in order stay as they are. -/
theorem arrangeEntries_elements {o : Options} (hplain : o.naturalSort = false) {items : List Nested}
    (h : elementsInOrder o false (items.map Prod.fst) = true) :
    arrangeEntries o (.json o) true Prod.fst items = .ok items := by
  cases hpreserve : o.preserveArrayOrder with
  | true =>
    unfold arrangeEntries
    rw [if_pos rfl, hpreserve, if_pos rfl]
  | false =>
    rw [elementsInOrder, hpreserve, Bool.false_or, Bool.false_or, decide_eq_true_eq,
      List.pairwise_map] at h
    rw [arrangeEntries_array hplain hpreserve, stableSort_self h]

variable {x : Layout.Excerpt} {trailing isObject : Bool} {o : Options}

theorem Read.unspread {inObject : Bool} {m : Member} (h : Read x trailing inObject m) :
    m.info.isSpread = false := by
  obtain ⟨span, unit, label, value, hrecorded, -⟩ := h.recorded
  exact hrecorded.unspread

theorem Read.named {inObject : Bool} {m : Member} (h : Read x trailing inObject m) :
    m.info.hasName = true := by
  obtain ⟨span, unit, label, value, hrecorded, -⟩ := h.recorded
  exact hrecorded.named

/-- Members of an object are in turn when the entries are that they stand for. -/
theorem pairwise_inTurn_iff {ms : List Member} (h : ∀ m ∈ ms, Read x trailing true m) :
    ms.Pairwise (fun a b => InTurn o a.info b.info) ↔
      ((ms.map (Member.entry true)).map Entry.standIn).Pairwise (InTurn o) := by
  rw [List.map_map, List.pairwise_map]
  exact List.Pairwise.iff_of_mem fun ha hb => InTurn.alike_iff (h _ ha).alike (h _ hb).alike

theorem eachAgrees_of_mapM {items : List Nested}
    (h : ∀ y ∈ items, ∀ m', y.2 = .ok m' →
      (y.1.entry isObject).Agrees o.preserveArrayOrder (m'.entry isObject))
    {r : List Member} (hr : items.mapM Prod.snd = .ok r) :
    EachAgrees o.preserveArrayOrder ((items.map Prod.fst).map (Member.entry isObject))
      (r.map (Member.entry isObject)) ∧ ∀ m' ∈ r, ∃ y ∈ items, y.2 = .ok m' := by
  induction items generalizing r with
  | nil =>
    cases hr
    exact ⟨.nil, fun _ h => absurd h List.not_mem_nil⟩
  | cons item rest ih =>
    rw [List.mapM_cons] at hr
    obtain ⟨m', hm', hr⟩ := bind_ok hr
    obtain ⟨others, hothers, hr⟩ := bind_ok hr
    cases hr
    obtain ⟨heach, hfrom⟩ := ih (fun y hy => h y (List.mem_cons_of_mem item hy)) hothers
    refine ⟨.cons (h item List.mem_cons_self m' hm') heach, fun m hm => ?_⟩
    rcases List.mem_cons.mp hm with rfl | hm
    · exact ⟨item, List.mem_cons_self, hm'⟩
    · obtain ⟨y, hy, hym⟩ := hfrom m hm
      exact ⟨y, List.mem_cons_of_mem item hy, hym⟩

section Level

variable {ms : List Member} (hread : ∀ m ∈ ms, Read x trailing isObject m)
  {f : Member → Except SortError Member}
include hread

theorem read_of_mem_beside {y : Nested} (hy : y ∈ beside f ms) : Read x trailing isObject y.1 := by
  obtain ⟨m, hm, rfl⟩ := List.mem_map.mp hy
  exact hread m hm

/-- A level that is arranged agrees with what it was, and without natural sorting its members are in
turn. -/
theorem arrangeLevel_sorts
    (hinside : ∀ m ∈ ms, ∀ m', f m = .ok m' →
      (m.entry isObject).Agrees o.preserveArrayOrder (m'.entry isObject))
    {entity : Option String} {checksNames : Bool} {r : List Member}
    (h : Sorter.json.arrangeLevel o (some (kindOf isObject)) entity checksNames (beside f ms) = .ok r) :
    (∀ key, Entry.Agrees o.preserveArrayOrder
      (.container key isObject (ms.map (Member.entry isObject)))
      (.container key isObject (r.map (Member.entry isObject)))) ∧
    (o.naturalSort = false → KeysInTurn o isObject (r.map (Member.entry isObject))) ∧
    ∀ m' ∈ r, ∃ m ∈ ms, f m = .ok m' := by
  obtain ⟨ordered, hordered, h⟩ := arrangeLevel_ok h
  rw [arrangeAround_unspread fun y hy => (read_of_mem_beside hread hy).unspread] at hordered
  have hperm := arrangeEntries_perm hordered
  have hfst := hperm.map Prod.fst
  rw [map_fst_beside] at hfst
  have hmem : ∀ y ∈ ordered, ∃ m ∈ ms, y = (m, f m) := by
    intro y hy
    obtain ⟨m, hm, rfl⟩ := List.mem_map.mp (hperm.mem_iff.mp hy)
    exact ⟨m, hm, rfl⟩
  have hagrees : ∀ y ∈ ordered, ∀ m', y.2 = .ok m' →
      (y.1.entry isObject).Agrees o.preserveArrayOrder (m'.entry isObject) := by
    intro y hy m' hm'
    obtain ⟨m, hm, rfl⟩ := hmem y hy
    exact hinside m hm m' hm'
  obtain ⟨heach, hfrom⟩ := eachAgrees_of_mapM hagrees h
  refine ⟨fun key => ?_, fun hplain hobject hkeys => ?_, fun m' hm' => ?_⟩
  · refine .container key isObject (hfst.symm.map _) (fun harray hpreserve => ?_) heach
    subst harray
    unfold arrangeEntries at hordered
    rw [Bool.not_false, if_pos rfl, hpreserve, if_pos rfl] at hordered
    cases hordered
    rw [map_fst_beside]
  · subst hobject
    have hturn := arrangeEntries_inTurn hplain hkeys hordered
    rw [heach.map_standIn, ← pairwise_inTurn_iff fun m hm => hread m (hfst.mem_iff.mp hm)]
    exact List.pairwise_map.mpr hturn
  · obtain ⟨y, hy, hym⟩ := hfrom m' hm'
    obtain ⟨m, hm, rfl⟩ := hmem y hy
    exact ⟨m, hm, hym⟩

/-- A level whose members are sorted inside to themselves and are in turn stays as it is. -/
theorem arrangeLevel_self (hinside : ∀ m ∈ ms, f m = .ok m) (hplain : o.naturalSort = false)
    (helements : elementsInOrder o isObject ms = true)
    (hkeys : KeysInTurn o isObject (ms.map (Member.entry isObject))) (entity : Option String)
    (checksNames : Bool) :
    Sorter.json.arrangeLevel o (some (kindOf isObject)) entity checksNames (beside f ms) = .ok ms := by
  have hnamed : (beside f ms).find? (fun y => !y.1.info.hasName) = none := by
    refine List.find?_eq_none.mpr fun y hy => ?_
    rw [(read_of_mem_beside hread hy).named]
    decide
  have harranged : Sorter.json.arrangeAround o (some (kindOf isObject)) Prod.fst (beside f ms) =
      .ok (beside f ms) := by
    rw [arrangeAround_unspread fun y hy => (read_of_mem_beside hread hy).unspread]
    cases isObject with
    | false => exact arrangeEntries_elements hplain (by rwa [map_fst_beside])
    | true =>
      refine arrangeEntries_self hplain fun hsort => ?_
      have hturn := (pairwise_inTurn_iff hread).mpr (hkeys rfl hsort)
      rwa [← map_fst_beside f ms, List.pairwise_map] at hturn
  have hsteps : Sorter.json.lacksSteps (some (kindOf isObject)) (beside f ms) = false := rfl
  have hself : (beside f ms).mapM Prod.snd = .ok ms := by
    rw [mapM_snd_self fun y hy => ?_, map_fst_beside]
    obtain ⟨m, hm, rfl⟩ := List.mem_map.mp hy
    exact hinside m hm
  unfold arrangeLevel
  rw [hnamed, hsteps, harranged]
  cases checksNames <;> exact hself

end Level

/-! ## All depths -/

/-- What sorting a member inside gives agrees with it and, without natural sorting, is settled. -/
theorem Read.sortInside_sorts {inObject : Bool} {m : Member} (h : Read x trailing inObject m)
    {entity : Option String} {m' : Member} (hm : sortInside .json o entity m = .ok m') :
    (m.entry inObject).Agrees o.preserveArrayOrder (m'.entry inObject) ∧
      (o.naturalSort = false → (m'.entry inObject).Settled o) := by
  induction h generalizing m' with
  | leaf h hnested hvalue =>
    cases hm
    exact ⟨.refl _ _, fun _ => .scalar _ _⟩
  | group isObject h hnested hcontainer hbody hopen hclose hvalue hrow hchildren ih =>
    rename_i inObject i span unit body label value children
    rw [sortInside] at hm
    split at hm
    · rename_i hempty
      cases hm
      rw [List.isEmpty_iff.mp hempty, entry_group hcontainer]
      refine ⟨.refl _ _, fun _ => .container _ _ (fun _ _ => .nil) fun e he => ?_⟩
      cases he
    · obtain ⟨sorted, hsorted, hm⟩ := bind_ok hm
      cases hm
      rw [childContext_eq hcontainer, sortEachInside_eq_beside] at hsorted
      obtain ⟨hagrees, hturn, hfrom⟩ := arrangeLevel_sorts hchildren
        (fun m hm m' hm' => (ih m hm hm').1) hsorted
      rw [entry_group hcontainer, entry_group hcontainer]
      refine ⟨hagrees _, fun hplain => .container _ _ (hturn hplain) fun e he => ?_⟩
      obtain ⟨m', hm', rfl⟩ := List.mem_map.mp he
      obtain ⟨m, hm, hmm'⟩ := hfrom m' hm'
      exact (ih m hm hmm').2 hplain

/-- A member that stands for a settled entry and is in order inside is sorted to itself. -/
theorem Read.sortInside_self {inObject : Bool} {m : Member} (h : Read x trailing inObject m)
    (hplain : o.naturalSort = false) (horder : inOrderInside o m = true)
    (hsettled : (m.entry inObject).Settled o) (entity : Option String) :
    sortInside .json o entity m = .ok m := by
  induction h with
  | leaf h hnested hvalue => rfl
  | group isObject h hnested hcontainer hbody hopen hclose hvalue hrow hchildren ih =>
    rename_i inObject i span unit body label value children
    obtain ⟨helements, horder⟩ := (inOrderInside_group hcontainer).mp horder
    rw [entry_group hcontainer] at hsettled
    cases hsettled with
    | container _ _ hkeys hinside =>
      rw [sortInside]
      split
      · rfl
      · rw [childContext_eq hcontainer, sortEachInside_eq_beside, arrangeLevel_self hchildren
          (fun m hm => ih m hm (horder m hm) (hinside _ (List.mem_map_of_mem hm))) hplain helements
          hkeys]
        rfl

/-! ## Roots -/

section Root

variable {ms : List Member} (hread : ∀ m ∈ ms, Read x trailing isObject m)
include hread

/-- The members of a root container, sorted. -/
theorem sortMembers_sorts {name : String} {ms' : List Member}
    (h : Sorter.json.sortMembers o (some (kindOf isObject, name)) ms = .ok ms') :
    Entry.Agrees o.preserveArrayOrder (.container [] isObject (ms.map (Member.entry isObject)))
      (.container [] isObject (ms'.map (Member.entry isObject))) ∧
    (o.naturalSort = false → SettledRoot o isObject (ms'.map (Member.entry isObject))) := by
  by_cases hne : ms = []
  · subst hne
    cases h
    refine ⟨.refl _ _, fun _ => ⟨fun _ _ => .nil, fun _ e he => ?_⟩⟩
    cases he
  · rw [sortMembers_eq hne] at h
    cases hnested : o.sortNestedObjects with
    | false =>
      rw [hnested, if_neg (by decide)] at h
      obtain ⟨hagrees, hturn, hfrom⟩ := arrangeLevel_sorts hread
        (fun m hm m' hm' => by cases hm'; exact .refl _ _) h
      refine ⟨hagrees [], fun hplain => ⟨hturn hplain, fun h => ?_⟩⟩
      rw [hnested] at h
      cases h
    | true =>
      rw [hnested, if_pos rfl] at h
      obtain ⟨hagrees, hturn, hfrom⟩ := arrangeLevel_sorts hread
        (fun m hm m' hm' => ((hread m hm).sortInside_sorts hm').1) h
      refine ⟨hagrees [], fun hplain => ⟨hturn hplain, fun _ e he => ?_⟩⟩
      obtain ⟨m', hm', rfl⟩ := List.mem_map.mp he
      obtain ⟨m, hm, hmm'⟩ := hfrom m' hm'
      exact ((hread m hm).sortInside_sorts hmm').2 hplain

/-- The members of a root container that is settled and in order stay as they are. -/
theorem sortMembers_self (hplain : o.naturalSort = false) (horder : rootInOrder o isObject ms = true)
    (hsettled : SettledRoot o isObject (ms.map (Member.entry isObject))) (name : String) :
    Sorter.json.sortMembers o (some (kindOf isObject, name)) ms = .ok ms := by
  by_cases hne : ms = []
  · subst hne
    rfl
  · obtain ⟨helements, hinside⟩ := rootInOrder_iff.mp horder
    rw [sortMembers_eq hne]
    refine arrangeLevel_self hread (fun m hm => ?_) hplain helements hsettled.keys _ _
    split
    · rename_i hnested
      exact (hread m hm).sortInside_self hplain (hinside hnested m hm)
        (hsettled.inside hnested _ (List.mem_map_of_mem hm)) _
    · rfl

end Root

end MemberOrder.Json
