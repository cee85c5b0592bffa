/-
  Members as records of a text.

  A member stands for an entry (`Member.entry`). Without comments the members of a tree are computed
  slot by slot (`Tree.members_container`). A member is `Read` from an excerpt when its record says what
  stands where: label and value at its span, blanks and a comma after it, and inside a container blank
  gaps between the units of its children, at every depth.
-/
import MemberOrder.Layout.Slots
import MemberOrder.Proofs.Json.Grammar
import MemberOrder.Proofs.Layout.Rearranging
import MemberOrder.Proofs.Placement.Json

namespace MemberOrder

open Json Layout

/-! ## Entries of members -/

/-- The key of a member of an object; an element has none. -/
def Json.keyOf (inObject : Bool) (i : MemberInfo) : List Char :=
  if inObject then i.name.toList else []

mutual

/-- The entry that a member stands for. -/
def Member.entry (inObject : Bool) : Member → Entry
  | .leaf i => .scalar (keyOf inObject i) i.value.display.toList
  | .group i children =>
    .container (keyOf inObject i) (i.container == .braces) (entriesOf (i.container == .braces) children)

/-- The entries that members stand for. -/
def entriesOf (inObject : Bool) : List Member → List Entry
  | [] => []
  | m :: rest => m.entry inObject :: entriesOf inObject rest

end

theorem entriesOf_eq_map (inObject : Bool) (ms : List Member) :
    entriesOf inObject ms = ms.map (Member.entry inObject) := by
  induction ms with
  | nil => rfl
  | cons m rest ih => rw [entriesOf, ih, List.map_cons]

namespace Json

/-! ## Members of a tree without comments -/

section Pool

open Attachment

variable (s : Scanned)

/-- The members that are read of a value when there are no comments. -/
def Tree.members (tree : Tree) : List Member := (containerMembers s tree []).1.1

/-- The member of a slot when there are no comments. -/
def memberAt (isObject : Bool) (index : Nat) (m : Slot × Tree) : Member :=
  let info := memberInfo s isObject index m.1 m.2 [] [] []
  match m.2 with
  | .scalar _ _ => .leaf info
  | .container _ _ _ _ => .group info (m.2.members s)

/-- The members of slots, counted from `index` on, when there are no comments. -/
def membersAt (isObject : Bool) : (index : Nat) → List (Slot × Tree) → List Member
  | _, [] => []
  | index, m :: rest => memberAt s isObject index m :: membersAt isObject (index + 1) rest

variable {s}

theorem memberOf_nil {slot : Slot} {value : Tree}
    (h : containerMembers s value [] = ((value.members s, []), []))
    (isObject : Bool) (close index floor : Nat) :
    memberOf s isObject close (slot, value) index floor [] =
      ((memberAt s isObject index (slot, value), pastSeparator value.stop slot.comma), []) := by
  have hearly : takeEarly value.stop slot.comma [] = ([], []) := by
    cases slot.comma <;> rfl
  rw [memberOf_eq]
  show _ = ((memberAt s isObject index (slot, value), _), [])
  simp only [show takeLeading s slot.start floor [] = ([], []) from rfl,
    show takeInside slot.start value.start [] = ([], []) from rfl, h, hearly,
    show ∀ after, takeTrailing s after close [] [] = ([], []) from fun _ => rfl]
  cases value <;> rfl

mutual

/-- Without comments none is left over. -/
theorem containerMembers_nil : (tree : Tree) →
    containerMembers s tree [] = ((tree.members s, []), [])
  | .scalar a b => rfl
  | .container isObject a b members => by
    have hmembers := membersFrom_nil isObject (b - 1) members 0 (a + 1)
    simp only [Tree.members, containerMembers, bind_apply, pure_apply, hmembers]
    rfl

theorem membersFrom_nil (isObject : Bool) (close : Nat) : (members : List (Slot × Tree)) →
    (index floor : Nat) →
    membersFrom s isObject close members index floor [] = (membersAt s isObject index members, [])
  | [], _, _ => rfl
  | m :: rest, index, floor => by
    obtain ⟨slot, value⟩ := m
    have hvalue := value_nil (slot, value)
    have hrest := membersFrom_nil isObject close rest (index + 1)
      (pastSeparator value.stop slot.comma)
    simp only [membersFrom, bind_apply, pure_apply, memberOf_nil hvalue, hrest]
    rfl

theorem value_nil : (m : Slot × Tree) →
    containerMembers s m.2 [] = ((m.2.members s, []), [])
  | (_, value) => containerMembers_nil value

end

theorem Tree.members_container (isObject : Bool) (a b : Nat) (members : List (Slot × Tree)) :
    (Tree.container isObject a b members).members s = membersAt s isObject 0 members := by
  have hmembers := membersFrom_nil (s := s) isObject (b - 1) members 0 (a + 1)
  simp only [Tree.members, containerMembers, bind_apply, hmembers]
  rfl

end Pool

/-! ## Records -/

/-- What the record of a member says: label and value stand at its span, and its unit goes on to its
separator, if there is one. -/
structure Recorded (x : Excerpt) (inObject : Bool) (i : MemberInfo) (span unit : Span)
    (label value : List Char) : Prop where
  span_eq : i.span = some span
  unit_eq : i.unit = some unit
  start_eq : unit.start = span.start
  label_key : Label inObject (keyOf inObject i) label
  text_eq : x.slice span.start span.stop = label ++ value
  value_eq : i.value = .text (String.ofList value)
  fullText_eq : i.fullText = String.ofList (label ++ value)
  after : i.separator = "" ∧ unit.stop = span.stop ∨
    i.separator = "," ∧ ∃ a, Blank a ∧ x.slice span.stop unit.stop = a ++ [',']
  comments_eq : i.comments = []
  trailing_eq : i.trailingComments = []
  dangling_eq : i.dangling = []
  named : i.hasName = true
  required : i.optional = false
  unspread : i.isSpread = false
  kind_eq : i.kind = .property

/-- A comma after each but the last, and after the last where that is allowed. -/
def Commas (trailing : Bool) : List String → Prop
  | [] => True
  | [s] => s = "" ∨ trailing = true ∧ s = ","
  | s :: rest => s = "," ∧ Commas trailing rest

/-- Members that stand in a row: blanks between their units, and commas after them. -/
structure InRow (x : Excerpt) (trailing : Bool) (start stop : Nat) (ms : List Member) : Prop where
  gaps : ∀ gap ∈ gapsFrom x stop start ms, Blank gap
  commas : Commas trailing (ms.map (·.info.separator))

/-- The brackets of a container. -/
def bracketsOf (isObject : Bool) : Container := if isObject then .braces else .brackets

/-- A member that was read from an excerpt, with everything inside it. -/
inductive Read (x : Excerpt) (trailing : Bool) : (inObject : Bool) → Member → Prop
  | leaf {inObject : Bool} {i : MemberInfo} {span unit : Span} {label value : List Char}
      (h : Recorded x inObject i span unit label value) (hnested : i.hasNestedObject = false)
      (hvalue : Scalar value) : Read x trailing inObject (.leaf i)
  | group {inObject : Bool} (isObject : Bool) {i : MemberInfo} {span unit body : Span}
      {label value : List Char} {children : List Member}
      (h : Recorded x inObject i span unit label value) (hnested : i.hasNestedObject = true)
      (hcontainer : i.container = bracketsOf isObject) (hbody : i.body = some body)
      (hopen : x.slice span.start body.start = label ++ [opener isObject])
      (hclose : x.slice body.stop span.stop = [closer isObject])
      (hvalue : Spells trailing false (.container [] isObject (children.map (Member.entry isObject)))
        value)
      (hrow : InRow x trailing body.start body.stop children)
      (hchildren : ∀ m ∈ children, Read x trailing isObject m) :
      Read x trailing inObject (.group i children)

theorem bracketsOf_braces (isObject : Bool) : (bracketsOf isObject == .braces) = isObject := by
  cases isObject <;> rfl

theorem entry_group {isObject : Bool} {i : MemberInfo} (h : i.container = bracketsOf isObject)
    (inObject : Bool) (children : List Member) :
    (Member.group i children).entry inObject =
      .container (keyOf inObject i) isObject (children.map (Member.entry isObject)) := by
  rw [Member.entry, h, bracketsOf_braces, entriesOf_eq_map]

theorem Recorded.display {x : Excerpt} {inObject : Bool} {i : MemberInfo} {span unit : Span}
    {label value : List Char} (h : Recorded x inObject i span unit label value) :
    i.value.display.toList = value := by
  rw [h.value_eq]
  exact String.toList_ofList

/-- The value of a member, with any label for its key, spells the entry that it stands for. -/
theorem Read.recorded {x : Excerpt} {trailing inObject : Bool} {m : Member}
    (h : Read x trailing inObject m) :
    ∃ span unit label value, Recorded x inObject m.info span unit label value ∧
      ∀ label', Label inObject (keyOf inObject m.info) label' →
        Spells trailing inObject (m.entry inObject) (label' ++ value) := by
  cases h with
  | leaf h hnested hvalue =>
    refine ⟨_, _, _, _, h, fun label' hlabel => ?_⟩
    rw [Member.entry, h.display]
    exact .scalar hlabel hvalue
  | group isObject h hnested hcontainer hbody hopen hclose hvalue hrow hchildren =>
    refine ⟨_, _, _, _, h, fun label' hlabel => ?_⟩
    rw [entry_group hcontainer]
    exact hvalue.relabel hlabel

/-! ## The record of a slot -/

/-- Between two offsets an excerpt shows the text. -/
def Shows (x : Excerpt) (t : Text) (lo hi : Nat) : Prop :=
  ∀ a b, lo ≤ a → b ≤ hi → x.slice a b = t.slice a b

/-- A comma, if there is one, stands after blanks from `stop` on and before `hi`. -/
def CommaAfter (t : Text) (stop hi : Nat) (comma : Option Nat) : Prop :=
  ∀ p, comma = some p → p < hi ∧ ∃ a, Blank a ∧ t.slice stop (p + 1) = a ++ [',']

/-- The key of a slot is what stands between its quotes. -/
theorem cut_key {t : Text} {a : Nat} {key label value : List Char} (hlabel : Label true key label)
    (h : t.standsAt a (label ++ value) = true) :
    t.cut (a + 1) (a + key.length + 2 - 1) = String.ofList key := by
  cases hlabel with
  | member hkey _ _ =>
    simp only [List.append_assoc, List.cons_append] at h
    have hinner := (Text.standsAt_append.mp (Text.standsAt_cons.mp h).2).1
    rw [Text.cut, show a + key.length + 2 - 1 = a + 1 + key.length by omega,
      Text.slice_of_standsAt hinner]

/-- The record of a slot whose text is known. -/
theorem memberInfo_recorded {s : Scanned} {x : Excerpt} {lo hi a keyStop : Nat}
    {comma : Option Nat} {inObject : Bool} {key label value : List Char} (index : Nat) (tree : Tree)
    (hshows : Shows x s.source lo hi) (hlo : lo ≤ a) (hhi : a + (label ++ value).length ≤ hi)
    (hlabel : Label inObject key label) (hstands : s.source.standsAt a (label ++ value) = true)
    (hkey : inObject = true → keyStop = a + key.length + 2)
    (hstart : tree.start = a + label.length) (hstop : tree.stop = a + (label ++ value).length)
    (hcomma : CommaAfter s.source tree.stop hi comma) :
    let i := memberInfo s inObject index ⟨a, keyStop, comma⟩ tree [] [] []
    Recorded x inObject i (s.span a tree.stop) (s.span a (pastSeparator tree.stop comma)) label
      value ∧ keyOf inObject i = key := by
  intro i
  have hinfo : i.span = some (s.span a tree.stop) ∧
      i.unit = some (s.span a (pastSeparator tree.stop comma)) ∧
      i.name = (if inObject then s.source.cut (a + 1) (keyStop - 1) else toString index) ∧
      i.value = .text (s.source.cut tree.start tree.stop) ∧
      i.fullText = s.source.cut a tree.stop ∧
      i.separator = (if comma.isSome then "," else "") ∧
      i.comments = [] ∧ i.trailingComments = [] ∧ i.dangling = [] ∧ i.hasName = true ∧
      i.optional = false ∧ i.isSpread = false ∧ i.kind = .property := by
    cases tree <;> cases comma <;> exact ⟨rfl, rfl, rfl, rfl, rfl, rfl, rfl, rfl, rfl, rfl, rfl, rfl, rfl⟩
  obtain ⟨h1, h2, h3, h4, h5, h6, h7, h8, h9, h10, h11, h12, h13⟩ := hinfo
  have hslice : s.source.slice a tree.stop = label ++ value := by
    rw [hstop]
    exact Text.slice_of_standsAt hstands
  have hvalue : s.source.slice tree.start tree.stop = value := by
    have := Text.slice_of_standsAt (Text.standsAt_append.mp hstands).2
    rwa [hstart, hstop, List.length_append, ← Nat.add_assoc]
  have hkeyOf : keyOf inObject i = key := by
    cases hlabel with
    | element => rfl
    | member hk ha hb =>
      rw [keyOf, if_pos rfl, h3, if_pos rfl, hkey rfl, cut_key (.member hk ha hb) hstands,
        String.toList_ofList]
  refine ⟨⟨h1, h2, rfl, ?_, ?_, ?_, ?_, ?_, h7, h8, h9, h10, h11, h12, h13⟩, hkeyOf⟩
  · rw [hkeyOf]
    exact hlabel
  · show x.slice a tree.stop = _
    rw [hshows a tree.stop hlo (by omega), hslice]
  · rw [h4, Text.cut, hvalue]
  · rw [h5, Text.cut, hslice]
  · rw [h6]
    cases comma with
    | none => exact Or.inl ⟨rfl, rfl⟩
    | some p =>
      obtain ⟨hp, b, hb, hafter⟩ := hcomma p rfl
      refine Or.inr ⟨rfl, b, hb, ?_⟩
      show x.slice tree.stop (p + 1) = _
      rw [hshows _ _ (by omega) hp, hafter]

end Json

end MemberOrder

/-!
## Members dealt into their places spell what they stand for

Commas belong to places: each place but the last has one, and the last has one when the options add
it. So the units of members, dealt between blank gaps, are a row again (`interleave_row`), and by
induction on what was read the text of a rearranged member spells the entry that it stands for
(`Read.memberText_spells`).
-/

namespace MemberOrder.Json

open Layout

/-! ## Trailing commas -/

theorem Row.weaken {texts : List (List Char)} {body : List Char} (h : Row false texts body)
    (trailing : Bool) : Row trailing texts body := by
  induction h with
  | nil ha => exact .nil ha
  | last ha hb => exact .last ha hb
  | cons ha hb hxs _ ih => exact .cons ha hb (Or.inr (hxs.resolve_left (by decide))) ih

/-- A text without trailing commas may have them. -/
theorem Spells.weaken {inObject : Bool} {e : Entry} {cs : List Char} (h : Spells false inObject e cs)
    (trailing : Bool) : Spells trailing inObject e cs := by
  induction h with
  | scalar hlabel htext => exact .scalar hlabel htext
  | container isObject items hlabel _ hbody ih =>
    exact .container isObject items hlabel ih (hbody.weaken trailing)

/-- Whether a comma is added after the last member. -/
def addsComma (o : Options) : Bool := o.trailingCommas == .add

/-- The separator of a place, of `count` places. -/
def placeSeparator (o : Options) (count slot : Nat) : String :=
  if slot + 1 < count ∨ addsComma o = true then "," else ""

theorem Commas.getD {separators : List String} (h : Commas false separators) {slot : Nat}
    (hslot : slot < separators.length) :
    separators.getD slot "" = if slot + 1 < separators.length then "," else "" := by
  induction separators generalizing slot with
  | nil => cases hslot
  | cons s rest ih =>
    cases rest with
    | nil =>
      obtain rfl : slot = 0 := by simpa using hslot
      exact h.resolve_right fun h => absurd h.1 (by decide)
    | cons s' rest =>
      cases slot with
      | zero =>
        rw [if_pos (by simp)]
        exact h.1
      | succ slot =>
        have hget : (s' :: rest).getD slot "" = if slot + 1 < (s' :: rest).length then "," else "" :=
          ih h.2 (by simpa using hslot)
        rw [List.getD_cons_succ, hget]
        simp only [List.length_cons, Nat.add_lt_add_iff_right]

/-- The separator of a member is that of the place it is dealt into. -/
theorem slotSeparator_eq {s : Setting} (hs : s.rules = Rules.json) {separators : List String}
    (h : Commas false separators) {slot : Nat} (hslot : slot < separators.length) (own : String) :
    slotSeparator s own slot separators = placeSeparator s.options separators.length slot := by
  unfold slotSeparator placeSeparator addsComma
  rw [hs]
  simp only [Rules.json, if_true, Bool.and_true, h.getD hslot, beq_iff_eq]
  by_cases hlast : slot + 1 = separators.length
  · rw [if_pos hlast, if_neg (by omega)]
    unfold finalSeparator
    cases s.options.trailingCommas <;> simp [hlast]
  · rw [if_neg hlast, if_pos (by omega), if_pos (Or.inl (by omega))]

/-! ## Units -/

theorem separatorIndex?_comma {a : List Char} (ha : Blank a) (i : Nat) :
    separatorIndex? [','] [] i (a ++ [',']) = some (i + a.length) := by
  induction a generalizing i with
  | nil => rfl
  | cons c rest ih =>
    have hne : (',' == c) = false := by
      have hall : ∀ c ∈ blanks, (',' == c) = false := by decide
      exact hall c (ha c List.mem_cons_self)
    rw [List.cons_append, separatorIndex?]
    simp only [List.any_nil, Bool.not_false, Bool.true_and, List.isPrefixOf, hne, Bool.false_and,
      Bool.false_eq_true, if_false]
    rw [ih (fun d hd => ha d (List.mem_cons_of_mem c hd)), List.length_cons]
    congr 1
    omega

/-- The unit of a member is its text, blanks and the separator of its place. -/
theorem Recorded.unitText {s : Setting} {inObject : Bool} {i : MemberInfo} {span unit : Span}
    {label value : List Char} (h : Recorded s.excerpt inObject i span unit label value)
    (text : List Char) (separator : String) :
    ∃ b, Blank b ∧ unitText s i text separator = text ++ (b ++ separator.toList) := by
  have hlead : s.excerpt.slice unit.start span.start = [] := by
    rw [h.start_eq]
    exact Text.slice_self _ (Nat.le_refl _)
  unfold Layout.unitText
  simp only [h.unit_eq, h.span_eq, hlead, List.nil_append]
  rcases h.after with ⟨hnone, hstop⟩ | ⟨hcomma, b, hb, hafter⟩
  · refine ⟨[], blank_nil, ?_⟩
    have hafter : s.excerpt.slice span.stop unit.stop = [] := by
      rw [hstop]
      exact Text.slice_self _ (Nat.le_refl _)
    simp [hnone, hafter]
  · refine ⟨b, hb, ?_⟩
    have hplace : ownSeparatorIndex? i (b ++ [',']) = some b.length := by
      have := separatorIndex?_comma hb 0
      rw [Nat.zero_add] at this
      simp only [ownSeparatorIndex?, h.trailing_eq, List.filterMap_nil, hcomma]
      exact this
    have hlength : ",".length = 1 := rfl
    simp only [hcomma, hafter, hplace, hlength]
    simp

/-! ## Rows -/

/-- A row goes on after the separator of its place; only the last place may have none. -/
theorem Row.placed {o : Options} {count slot : Nat} {texts : List (List Char)}
    {lead gap rest : List Char} (hlead : Blank lead) (item : List Char) (hgap : Blank gap)
    (h : Row (addsComma o) texts rest) (hslot : slot + 1 + texts.length = count) :
    Row (addsComma o) (item :: texts)
      (lead ++ (item ++ (gap ++ ((placeSeparator o count slot).toList ++ rest)))) := by
  unfold placeSeparator
  split
  · rename_i hcomma
    refine .cons hlead hgap ?_ h
    rcases hcomma with hlt | hadds
    · refine Or.inr fun hnil => ?_
      rw [hnil, List.length_nil] at hslot
      omega
    · exact Or.inl hadds
  · rename_i hlast
    obtain rfl : texts = [] := List.length_eq_zero_iff.mp (by omega)
    cases h with
    | nil hb => exact .last hlead (hgap.append hb)

/-- The units of members, dealt between blanks, are a row. -/
theorem interleave_row {s : Setting} (hs : s.rules = Rules.json) {separators : List String}
    (hcommas : Commas false separators) {ms : List (Member × List Char)}
    (hms : ∀ m ∈ ms, ∃ inObject span unit label value,
      Recorded s.excerpt inObject m.1.info span unit label value)
    {slot : Nat} (hslot : slot + ms.length = separators.length) {gaps : List (List Char)}
    (hgaps : ∀ gap ∈ gaps, Blank gap) (hlength : gaps.length = ms.length + 1) :
    Row (addsComma s.options) (ms.map (·.2)) (interleave gaps (unitsFrom s separators slot ms)) := by
  induction ms generalizing slot gaps with
  | nil =>
    obtain ⟨gap, rfl⟩ := List.length_eq_one_iff.mp hlength
    exact .nil (hgaps gap List.mem_cons_self)
  | cons m rest ih =>
    obtain ⟨m, text⟩ := m
    cases gaps with
    | nil => simp at hlength
    | cons gap gaps =>
      simp only [List.length_cons] at hslot hlength
      obtain ⟨inObject, span, unit, label, value, hrecorded⟩ := hms _ List.mem_cons_self
      obtain ⟨b, hb, hunit⟩ := hrecorded.unitText text
        (placeSeparator s.options separators.length slot)
      dsimp only at hunit
      have hgap := hgaps gap List.mem_cons_self
      have hrest := ih (fun m hm => hms m (List.mem_cons_of_mem _ hm))
        (show slot + 1 + rest.length = separators.length by omega)
        (fun g hg => hgaps g (List.mem_cons_of_mem _ hg)) (show gaps.length = _ by omega)
      simp only [unitsFrom, interleave, List.map_cons,
        slotSeparator_eq hs hcommas (show slot < separators.length by omega), hunit,
        List.append_assoc]
      exact hrest.placed hgap text hb (by rw [List.length_map]; omega)

theorem gapsFrom_congr (x : Excerpt) (stop : Nat) {ms ms' : List Member}
    (h : ms.map Member.info = ms'.map Member.info) (cursor : Nat) :
    gapsFrom x stop cursor ms = gapsFrom x stop cursor ms' := by
  induction ms generalizing ms' cursor with
  | nil =>
    obtain rfl : ms' = [] := List.map_eq_nil_iff.mp h.symm
    rfl
  | cons m rest ih =>
    obtain ⟨m', rest', rfl, hinfo, hrest⟩ := List.map_eq_cons_iff.mp h.symm
    have hstart : m'.unitStart = m.unitStart := by rw [Member.unitStart, hinfo, Member.unitStart]
    have hstop : m'.unitStop = m.unitStop := by rw [Member.unitStop, hinfo, Member.unitStop]
    rw [gapsFrom, gapsFrom, hstart, hstop, ih hrest.symm]

theorem length_gapsFrom (x : Excerpt) (stop cursor : Nat) (ms : List Member) :
    (gapsFrom x stop cursor ms).length = ms.length + 1 := by
  induction ms generalizing cursor with
  | nil => rfl
  | cons m rest ih => rw [gapsFrom, List.length_cons, ih, List.length_cons]

theorem memberTexts_eq_map (s : Setting) (ms : List Member) :
    memberTexts s ms = ms.map fun m => (m, memberText s m) := by
  induction ms with
  | nil => rfl
  | cons m rest ih => rw [memberTexts, ih, List.map_cons]

/-- A member of a list whose children are rearranged comes from one of the list. -/
theorem exists_rearranged {ms ms' : List Member} (h : Rearranged ms ms') {m' : Member}
    (hm : m' ∈ ms') : ∃ m ∈ ms, m.Rearranged m' := by
  obtain ⟨mid, hperm, heach⟩ := h
  have hfind : ∃ m ∈ mid, m.Rearranged m' := by
    clear hperm
    induction mid generalizing ms' with
    | nil =>
      cases heach
      cases hm
    | cons m rest ih =>
      cases heach with
      | cons hfirst hrest =>
        rcases List.mem_cons.mp hm with rfl | hm
        · exact ⟨m, List.mem_cons_self, hfirst⟩
        · obtain ⟨n, hn, hr⟩ := ih hm hrest
          exact ⟨n, List.mem_cons_of_mem _ hn, hr⟩
  obtain ⟨m, hm, hr⟩ := hfind
  exact ⟨m, hperm.mem_iff.mpr hm, hr⟩

section Spelled

variable {P : MemberInfo → Prop} {t : Text} {s : Setting}

/-- Members dealt into a body are a row of their texts. -/
theorem dealt_row (hs : s.rules = Rules.json) {isObject : Bool} {body : Span} {ms ms' : List Member}
    (hread : ∀ m ∈ ms, Read s.excerpt false isObject m)
    (hrow : InRow s.excerpt false body.start body.stop ms)
    (hlaid : LaidFrom P t body.stop body.start ms) (h : Rearranged ms ms') (hne : ms' ≠ []) :
    Row (addsComma s.options) (ms'.map (memberText s)) (dealt s body (memberTexts s ms')) := by
  have hmembers : (memberTexts s ms').map (·.1) = ms' := by
    rw [memberTexts_eq_map, List.map_map]
    exact List.map_id ms'
  have htexts : (memberTexts s ms').map (·.2) = ms'.map (memberText s) := by
    rw [memberTexts_eq_map, List.map_map]
    rfl
  have hinfos := sourceOrder_infos hlaid h
  have hseparators : (sourceOrder ms').map (·.info.separator) = ms.map (·.info.separator) := by
    have := congrArg (List.map MemberInfo.separator) hinfos
    rwa [List.map_map, List.map_map] at this
  have hlength : ms'.length = ms.length := by
    have := h.infos_perm.length_eq
    rwa [List.length_map, List.length_map] at this
  have hempty : (memberTexts s ms').isEmpty = false := by
    rw [memberTexts_eq_map]
    cases ms' with
    | nil => exact absurd rfl hne
    | cons m rest => rfl
  unfold dealt
  simp only [hmembers, bounds_eq hlaid h, hempty, Bool.false_eq_true, if_false, hseparators,
    gapsFrom_congr s.excerpt body.stop hinfos]
  rw [← htexts]
  refine interleave_row hs hrow.commas ?_ ?_ hrow.gaps ?_
  · intro m hm
    rw [memberTexts_eq_map] at hm
    obtain ⟨m, hm', rfl⟩ := List.mem_map.mp hm
    obtain ⟨n, hn, hr⟩ := exists_rearranged h hm'
    obtain ⟨span, unit, label, value, hrecorded, -⟩ := (hread n hn).recorded
    exact ⟨isObject, span, unit, label, value, hr.info_eq ▸ hrecorded⟩
  · rw [List.length_map, Nat.zero_add, memberTexts_eq_map, List.length_map, hlength]
  · rw [length_gapsFrom, memberTexts_eq_map, List.length_map, hlength]

/-- The text of a rearranged member spells the entry that it stands for. -/
theorem Read.memberText_spells (hs : s.rules = Rules.json) {inObject : Bool} {m : Member}
    (hread : Read s.excerpt false inObject m) (hlaid : m.LaidOut P t) {m' : Member}
    (h : m.Rearranged m') :
    Spells (addsComma s.options) inObject (m'.entry inObject) (memberText s m') := by
  induction hread generalizing m' with
  | leaf hrecorded hnested hvalue =>
    cases h with
    | leaf i =>
      simp only [memberText, verbatim, hrecorded.span_eq, Member.entry, hrecorded.display,
        hrecorded.text_eq]
      exact .scalar hrecorded.label_key hvalue
  | group isObject hrecorded hnested hcontainer hbody hopen hclose hvalue hrow hchildren ih =>
    rename_i inObject i span unit body label value children
    cases h with
    | group i hperm heach =>
      rename_i mid children'
      have hr : Rearranged children children' := ⟨mid, hperm, heach⟩
      obtain ⟨-, span', unit', body', hplaced, hbody', -, -, hlaidFrom⟩ := hlaid
      obtain rfl : body = body' := Option.some.inj (hbody.symm.trans hbody')
      simp only [memberText, hrecorded.span_eq, hbody]
      split
      · rename_i hreordered
        have hne : children' ≠ [] := by
          rintro rfl
          cases hreordered
        simp only [bounds_eq hlaidFrom hr, hopen, hclose]
        have hentry : (Member.group i children').entry inObject = .container (keyOf inObject i) isObject
            ((children'.map fun c => (c.entry isObject, memberText s c)).map (·.1)) := by
          rw [entry_group hcontainer, List.map_map]
          rfl
        have htext : label ++ [opener isObject] ++ dealt s body (memberTexts s children') ++
            [closer isObject] = label ++ (opener isObject :: dealt s body (memberTexts s children') ++
            [closer isObject]) := by simp
        rw [hentry, htext]
        refine .container isObject _ hrecorded.label_key ?_ ?_
        · intro item hitem
          obtain ⟨c, hc, rfl⟩ := List.mem_map.mp hitem
          obtain ⟨n, hn, hnc⟩ := exists_rearranged hr hc
          exact ih n hn (hlaidFrom.of_mem hn).1 hnc
        · rw [List.map_map]
          exact dealt_row hs hchildren hrow hlaidFrom hr hne
      · rename_i hreordered
        have hsame : children' = children := by
          refine Classical.byContradiction fun hne => hreordered ?_
          exact (reordered_iff hlaidFrom hr).mpr hne
        rw [hsame, verbatim, hrecorded.span_eq, entry_group hcontainer]
        simp only [hrecorded.text_eq]
        exact (hvalue.relabel hrecorded.label_key).weaken _

end Spelled

end MemberOrder.Json
