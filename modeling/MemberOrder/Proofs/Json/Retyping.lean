/-
  Members written anew spell what they stand for.

  A body is written in lines. However these are joined, blanks stand between what is left of them when
  they are trimmed (`Spaced`), so it is enough that the trimmed lines, with any blanks between them, are
  a row of the members (`TypesRow`). This holds of the lines of members whose children's lines are
  such rows (`linesFrom_typesRow`), hence by induction on what was read of the lines of every body
  (`Read.typesInside`).
-/
import MemberOrder.Layout.Written
import MemberOrder.Proofs.Json.Recording

namespace MemberOrder.Json

open Layout

/-! ## Trimmed lines -/

theorem trimLeft_blank_append {a : List Char} (ha : Blank a) (cs : List Char) :
    Text.trimLeft (a ++ cs) = Text.trimLeft cs :=
  List.dropWhile_append_of_pos fun c hc => isSpace_of_blank (ha c hc)

theorem Solid.trimLeft {cs : List Char} (h : Solid cs) : Text.trimLeft cs = cs := by
  obtain ⟨c, -, hhead, -, hc, -⟩ := h
  cases cs with
  | nil => rfl
  | cons d rest =>
    cases hhead
    rw [Text.trimLeft, List.dropWhile_cons_of_neg (by simp [hc])]

theorem Solid.reverse {cs : List Char} (h : Solid cs) : Solid cs.reverse := by
  obtain ⟨c, d, hhead, hlast, hc, hd⟩ := h
  exact ⟨d, c, by rwa [List.head?_reverse], by rwa [List.getLast?_reverse], hd, hc⟩

theorem Solid.trimRight {cs : List Char} (h : Solid cs) : Text.trimRight cs = cs := by
  have := h.reverse.trimLeft
  rw [Text.trimLeft] at this
  rw [Text.trimRight, this, List.reverse_reverse]

/-- A line is tidy when nothing but blanks is trimmed, and these stand in front. -/
def Tidy (line : String) : Prop := ∃ a, Blank a ∧ line.toList = a ++ Text.trim line.toList

theorem trim_solid {a cs : List Char} (ha : Blank a) (hcs : Solid cs) :
    Text.trim (a ++ cs) = cs := by
  rw [Text.trim, trimLeft_blank_append ha, hcs.trimLeft, hcs.trimRight]

theorem tidy_solid {line : String} {a cs : List Char} (ha : Blank a) (hcs : Solid cs)
    (h : line.toList = a ++ cs) : Tidy line ∧ Text.trim line.toList = cs := by
  have htrim : Text.trim line.toList = cs := by rw [h, trim_solid ha hcs]
  exact ⟨⟨a, ha, by rw [htrim, h]⟩, htrim⟩

theorem tidy_empty : Tidy "" := ⟨[], blank_nil, rfl⟩

/-! ## Spaced lines -/

/-- Lines, each trimmed, with blanks before, between and after them. -/
inductive Spaced : List String → List Char → Prop
  | nil {a : List Char} (ha : Blank a) : Spaced [] a
  | cons {line : String} {lines : List String} {a rest : List Char} (ha : Blank a)
      (h : Spaced lines rest) : Spaced (line :: lines) (a ++ (Text.trim line.toList ++ rest))

theorem Spaced.blank_append {lines : List String} {a text : List Char} (h : Spaced lines text)
    (ha : Blank a) : Spaced lines (a ++ text) := by
  cases h with
  | nil hb => exact .nil (ha.append hb)
  | cons hb h =>
    rw [← List.append_assoc]
    exact .cons (ha.append hb) h

theorem Spaced.append_blank {lines : List String} {text b : List Char} (h : Spaced lines text)
    (hb : Blank b) : Spaced lines (text ++ b) := by
  induction h with
  | nil ha => exact .nil (ha.append hb)
  | cons ha _ ih =>
    simp only [List.append_assoc]
    exact .cons ha ih

/-- What is spaced by a line and others starts with blanks and the line. -/
theorem Spaced.uncons {line : String} {lines : List String} {text : List Char}
    (h : Spaced (line :: lines) text) :
    ∃ a rest, Blank a ∧ text = a ++ (Text.trim line.toList ++ rest) ∧ Spaced lines rest := by
  cases h with
  | cons ha h => exact ⟨_, _, ha, rfl, h⟩

theorem Spaced.split {lines more : List String} {text : List Char} (h : Spaced (lines ++ more) text) :
    ∃ first second, text = first ++ second ∧ Spaced lines first ∧ Spaced more second := by
  induction lines generalizing text with
  | nil => exact ⟨[], text, rfl, .nil blank_nil, h⟩
  | cons line lines ih =>
    obtain ⟨a, rest, ha, rfl, hrest⟩ := Spaced.uncons h
    obtain ⟨first, second, rfl, hfirst, hsecond⟩ := ih hrest
    exact ⟨a ++ (Text.trim line.toList ++ first), second, by simp, .cons ha hfirst, hsecond⟩

theorem Tidy.spaced {line : String} {lines : List String} {rest : List Char} (hline : Tidy line)
    (h : Spaced lines rest) : Spaced (line :: lines) (line.toList ++ rest) := by
  obtain ⟨a, ha, heq⟩ := hline
  rw [heq, List.append_assoc]
  exact .cons ha h

/-- Lines joined by line feeds are spaced. -/
theorem joinLines_spaced {lines : List String} (h : ∀ line ∈ lines, Tidy line) :
    Spaced lines (joinLines lines) := by
  have hfeed : Blank ['\n'] := by
    intro c hc
    rw [List.mem_singleton.mp hc]
    decide
  unfold joinLines
  induction lines with
  | nil => exact .nil blank_nil
  | cons line lines ih =>
    have hline := h line List.mem_cons_self
    have hrest := ih fun l hl => h l (List.mem_cons_of_mem _ hl)
    cases lines with
    | nil =>
      have := hline.spaced (.nil blank_nil)
      rwa [List.append_nil] at this
    | cons next lines =>
      have := hline.spaced (hrest.blank_append hfeed)
      simpa [Text.join, List.append_assoc] using this

/-- Trimmed lines joined by blanks are spaced; empty ones are left out. -/
theorem joinBlanks_spaced (lines : List String) :
    Spaced lines (Text.join [' '] ((lines.map fun line => Text.trim line.toList).filter
      (!·.isEmpty))) := by
  have hblank : Blank [' '] := by
    intro c hc
    rw [List.mem_singleton.mp hc]
    decide
  induction lines with
  | nil => exact .nil blank_nil
  | cons line lines ih =>
    rw [List.map_cons]
    by_cases hempty : Text.trim line.toList = []
    · rw [hempty, List.filter_cons_of_neg (by simp)]
      have hcons : Spaced (line :: lines) ([] ++ (Text.trim line.toList ++ _)) := .cons blank_nil ih
      rwa [hempty] at hcons
    · rw [List.filter_cons_of_pos (by simpa using hempty)]
      generalize hrest : (lines.map fun line => Text.trim line.toList).filter (!·.isEmpty) = rest at ih
      cases rest with
      | nil =>
        have hcons : Spaced (line :: lines) ([] ++ (Text.trim line.toList ++ _)) := .cons blank_nil ih
        simpa [Text.join] using hcons
      | cons next rest =>
        have hcons : Spaced (line :: lines) ([] ++ (Text.trim line.toList ++ _)) :=
          .cons blank_nil (ih.blank_append hblank)
        simpa [Text.join, List.append_assoc] using hcons

/-! ## Typed rows -/

/-- Tidy lines that are a row of texts of the entries, whatever blanks stand between them. -/
def TypesRow (trailing isObject : Bool) (lines : List String) (es : List Entry) : Prop :=
  (∀ line ∈ lines, Tidy line) ∧ ∀ text, Spaced lines text →
    ∃ items : List (Entry × List Char), items.map (·.1) = es ∧
      (∀ item ∈ items, Spells trailing isObject item.1 item.2) ∧
      Row trailing (items.map (·.2)) text

/-- The lines of one item, which ends with `tail`: with any blanks between them and any lines after
them, they are blanks, a text of the entry and the tail. -/
def TypesItem (trailing isObject : Bool) (lines : List String) (e : Entry) (tail : List Char) : Prop :=
  (∀ line ∈ lines, Tidy line) ∧ ∀ more text, Spaced (lines ++ more) text →
    ∃ a item rest, Blank a ∧ text = a ++ (item ++ (tail ++ rest)) ∧
      Spells trailing isObject e item ∧ Spaced more rest

section Lines

variable {s : Setting}

theorem Solid.append_separator {cs : List Char} (h : Solid cs) (o : Options) (count slot : Nat) :
    Solid (cs ++ (placeSeparator o count slot).toList) := by
  unfold placeSeparator
  split
  · exact h.append [] (solid_one (c := ',') (by decide))
  · rw [show "".toList = [] from rfl, List.append_nil]
    exact h

theorem blank_spaces (n : Nat) : Blank (List.replicate n ' ') := by
  intro c hc
  rw [(List.mem_replicate.mp hc).2]
  decide

/-- A name and its value, with any spacing, are the value with a label for the name. -/
theorem nameAndValue_label (o : Options) {key : List Char} (hkey : Inside key) (value : List Char)
    (width : Nat) :
    ∃ label, Label true key label ∧
      (nameAndValue o ("\"" ++ String.ofList key ++ "\"") (String.ofList value) width ":").toList =
        label ++ value := by
  have hquoted : ("\"" ++ String.ofList key ++ "\"").toList = '"' :: key ++ ['"'] := by simp
  have hlabel : ∀ m n, Label true key
      ('"' :: key ++ '"' :: List.replicate m ' ' ++ ':' :: List.replicate n ' ') :=
    fun m n => .member hkey (blank_spaces m) (blank_spaces n)
  unfold nameAndValue
  split
  · exact ⟨_, hlabel 1 1, by simp⟩
  · dsimp only
    split
    · exact ⟨_, hlabel 0 1, by simp⟩
    · refine ⟨_, hlabel 0 (width + ":".length - (key.length + 3) + 1), ?_⟩
      have hlength : ("\"" ++ String.ofList key ++ "\"" ++ ":").toList.length = key.length + 3 := by
        simp
      rw [String.toList_append, String.toList_append, String.toList_ofList, Text.padRight, hlength,
        List.replicate_succ']
      simp
  · exact ⟨_, hlabel 0 1, by simp⟩
  · exact ⟨_, hlabel 0 1, by simp⟩

/-- A member typed anew is its value with a label for its name. -/
theorem Recorded.retype {x : Excerpt} {inObject : Bool} {m : Member} {span unit : Span}
    {label value : List Char} (h : Recorded x inObject m.info span unit label value) (o : Options)
    (width : Nat) :
    ∃ label', Label inObject (keyOf inObject m.info) label' ∧
      (Rules.json.retype o m width).toList = label' ++ value := by
  have htext : m.info.value.text? = some (String.ofList value) := by
    rw [h.value_eq]
    rfl
  have hdisplay : m.info.value.display = String.ofList value := by
    rw [h.value_eq]
    rfl
  cases inObject with
  | false =>
    have hlabel := h.label_key
    cases hlabel
    refine ⟨[], .element, ?_⟩
    simp only [Rules.json, htext, h.fullText_eq, List.nil_append, beq_self_eq_true, if_true,
      String.toList_ofList]
  | true =>
    have hne : (m.info.value.text? == some m.info.fullText) = false := by
      rw [htext, h.fullText_eq, beq_eq_false_iff_ne]
      intro heq
      have hlist := congrArg String.toList (Option.some.inj heq)
      rw [String.toList_ofList, String.toList_ofList] at hlist
      have hlength := congrArg List.length hlist
      have hlabel := h.label_key
      cases hlabel
      simp only [List.length_append, List.length_cons] at hlength
      omega
    have hlabel := h.label_key
    generalize hkey : keyOf true m.info = key at hlabel
    have hname : m.name = String.ofList key := by
      rw [← hkey, keyOf, if_pos rfl, String.ofList_toList]
      rfl
    cases hlabel with
    | member hinside ha hb =>
      simp only [Rules.json, hne, Bool.false_eq_true, if_false, hname, hdisplay]
      exact nameAndValue_label o hinside value width

/-- A member without children is typed on one line. -/
theorem memberLines_of_no_children {m : Member} (h : m.children = []) (hcomments : m.info.comments = [])
    (indent : String) (width : Nat) (tail : String) (inside : List String) :
    memberLines s indent width tail m inside =
      [indent ++ s.rules.retype s.options m width ++ tail] := by
  unfold memberLines
  simp only [hcomments, writeLeading, List.map_nil, ite_self, List.nil_append, h, List.isEmpty_nil,
    if_true]
  split <;> rfl

/-- A container whose children keep within its brackets is typed with its own brackets around them. -/
theorem Recorded.memberLines_of_children {inObject isObject : Bool} {i : MemberInfo}
    {span unit body : Span} {label value : List Char} {children : List Member}
    (h : Recorded s.excerpt inObject i span unit label value) (hchildren : children ≠ [])
    (hbody : i.body = some body) (hbounds : bounds body children = (body.start, body.stop))
    (hopen : s.excerpt.slice span.start body.start = label ++ [opener isObject])
    (hclose : s.excerpt.slice body.stop span.stop = [closer isObject])
    (indent : String) (width : Nat) (tail : String) (inside : List String) :
    memberLines s indent width tail (.group i children) inside =
      (indent ++ String.ofList (label ++ [opener isObject])) :: inside ++
        [indent ++ String.ofList [closer isObject] ++ tail] := by
  have hhead : Solid (label ++ [opener isObject]) :=
    h.label_key.solid (solid_one (by cases isObject <;> decide))
  have hfoot : Solid [closer isObject] := solid_one (by cases isObject <;> decide)
  have hempty : (Member.group i children).children.isEmpty = false := by
    rw [List.isEmpty_eq_false_iff]
    exact hchildren
  unfold memberLines
  simp only [Member.info, h.comments_eq, writeLeading, List.map_nil, ite_self, List.nil_append,
    h.span_eq, hbody, hempty, Bool.false_eq_true, if_false]
  rw [show (Member.group i children).children = children from rfl, hbounds]
  simp only [hopen, hclose, hhead.trimRight, hfoot.trimLeft]

theorem typesItem_line {trailing isObject : Bool} {e : Entry} {indent line : String}
    {item : List Char} (hindent : Blank indent.toList) (hline : line.toList = item)
    (hspells : Spells trailing isObject e item) (o : Options) (count slot : Nat) :
    TypesItem trailing isObject [indent ++ line ++ placeSeparator o count slot] e
      (placeSeparator o count slot).toList := by
  have hchars : (indent ++ line ++ placeSeparator o count slot).toList =
      indent.toList ++ (item ++ (placeSeparator o count slot).toList) := by
    rw [String.toList_append, String.toList_append, hline, List.append_assoc]
  obtain ⟨htidy, htrim⟩ := tidy_solid hindent (hspells.solid.append_separator o count slot) hchars
  refine ⟨fun l hl => List.mem_singleton.mp hl ▸ htidy, fun more text htext => ?_⟩
  obtain ⟨a, rest, ha, rfl, hrest⟩ := Spaced.uncons htext
  refine ⟨a, item, rest, ha, ?_, hspells, hrest⟩
  rw [htrim, List.append_assoc]

/-- A container is typed on the line that opens it, those inside and the line that closes it. -/
theorem typesItem_container {trailing inObject isObject : Bool} {key label : List Char}
    {es : List Entry} {indent : String} {inside : List String} (hindent : Blank indent.toList)
    (hlabel : Label inObject key label) (hinside : TypesRow trailing isObject inside es)
    (o : Options) (count slot : Nat) :
    TypesItem trailing inObject
      ((indent ++ String.ofList (label ++ [opener isObject])) :: inside ++
        [indent ++ String.ofList [closer isObject] ++ placeSeparator o count slot])
      (.container key isObject es) (placeSeparator o count slot).toList := by
  have hopen : Solid [opener isObject] := solid_one (by cases isObject <;> decide)
  have hclose : Solid [closer isObject] := solid_one (by cases isObject <;> decide)
  have hheadChars : (indent ++ String.ofList (label ++ [opener isObject])).toList =
      indent.toList ++ (label ++ [opener isObject]) := by
    rw [String.toList_append, String.toList_ofList]
  have hfootChars : (indent ++ String.ofList [closer isObject] ++ placeSeparator o count slot).toList =
      indent.toList ++ ([closer isObject] ++ (placeSeparator o count slot).toList) := by
    rw [String.toList_append, String.toList_append, String.toList_ofList, List.append_assoc]
  obtain ⟨hheadTidy, hhead⟩ := tidy_solid hindent (hlabel.solid hopen) hheadChars
  obtain ⟨hfootTidy, hfoot⟩ := tidy_solid hindent (hclose.append_separator o count slot) hfootChars
  constructor
  · intro line hline
    rw [List.cons_append, List.mem_cons, List.mem_append, List.mem_singleton] at hline
    rcases hline with rfl | hline | rfl
    · exact hheadTidy
    · exact hinside.1 line hline
    · exact hfootTidy
  · intro more text htext
    rw [List.cons_append, List.cons_append] at htext
    obtain ⟨a, rest, ha, rfl, hrest⟩ := Spaced.uncons htext
    rw [List.append_assoc] at hrest
    obtain ⟨body, rest', rfl, hbody, hrest'⟩ := hrest.split
    obtain ⟨b, rest'', hb, rfl, hmore⟩ := Spaced.uncons hrest'
    -- the blanks before the closing bracket end the row
    obtain ⟨items, hes, hitems, hrow⟩ := hinside.2 _ (hbody.append_blank hb)
    refine ⟨a, label ++ (opener isObject :: (body ++ b) ++ [closer isObject]), rest'', ha, ?_, ?_, hmore⟩
    · rw [hhead, hfoot]
      simp
    · rw [← hes]
      exact .container isObject items hlabel hitems hrow

variable {P : MemberInfo → Prop} {t : Text}

/-- The lines of a rearranged member, given those inside it. -/
theorem Read.memberLines_typesItem (hs : s.rules = Rules.json) {inObject : Bool} {m m' : Member}
    (hread : Read s.excerpt false inObject m) (hlaid : m.LaidOut P t) (h : m.Rearranged m')
    {indent : String} (hindent : Blank indent.toList) (width count slot : Nat) {inside : List String}
    (hinside : ∀ i children, m' = .group i children → children ≠ [] →
      TypesRow (addsComma s.options) (i.container == .braces) inside
        (children.map (Member.entry (i.container == .braces)))) :
    TypesItem (addsComma s.options) inObject
      (memberLines s indent width (placeSeparator s.options count slot) m' inside)
      (m'.entry inObject) (placeSeparator s.options count slot).toList := by
  obtain ⟨span, unit, label, value, hrecorded, hspelled⟩ := hread.recorded
  rw [← h.info_eq] at hrecorded
  by_cases hchildren : m'.children = []
  · -- nothing inside it can have been rearranged
    have hentry : m'.entry inObject = m.entry inObject := by
      cases h with
      | leaf i => rfl
      | group i hperm heach =>
        obtain rfl := hchildren
        cases heach
        rw [List.perm_nil.mp hperm]
    obtain ⟨label', hlabel', hretype⟩ := hrecorded.retype s.options width
    rw [memberLines_of_no_children hchildren hrecorded.comments_eq, hs, hentry]
    refine typesItem_line hindent hretype ((hspelled label' ?_).weaken _) s.options count slot
    rwa [← h.info_eq]
  · cases h with
    | leaf i => exact absurd rfl hchildren
    | group i hperm heach =>
      rename_i children mid children'
      have hr : Rearranged children children' := ⟨mid, hperm, heach⟩
      have hchildren : children' ≠ [] := hchildren
      cases hread with
      | group isObject hrecorded' hnested hcontainer hbody hopen hclose hspelled' hrow hread' =>
        rename_i span' unit' body label' value'
        obtain ⟨-, -, -, body', -, hbody', -, -, hlaidFrom⟩ := hlaid
        obtain rfl : body = body' := Option.some.inj (hbody.symm.trans hbody')
        have hinside := hinside i children' rfl hchildren
        rw [hcontainer, bracketsOf_braces] at hinside
        rw [hrecorded'.memberLines_of_children hchildren hbody (bounds_eq hlaidFrom hr) hopen hclose,
          entry_group hcontainer]
        exact typesItem_container hindent hrecorded'.label_key hinside s.options count slot

theorem groupBreak_spaced {previous : Option String} {group : String} {text : List Char}
    (h : Spaced (groupBreak s previous group) text) : Blank text := by
  unfold groupBreak at h
  split at h
  · obtain ⟨a, rest, ha, rfl, hrest⟩ := Spaced.uncons h
    cases hrest with
    | nil hb => exact ha.append hb
  · cases h with
    | nil ha => exact ha

theorem groupBreak_tidy {previous : Option String} {group line : String}
    (h : line ∈ groupBreak s previous group) : Tidy line := by
  unfold groupBreak at h
  split at h
  · rw [List.mem_singleton.mp h]
    exact tidy_empty
  · cases h

/-- The lines of an item, after those that set its group off and before those of a row, are a row. -/
theorem TypesItem.typesRow {isObject : Bool} {o : Options} {count slot : Nat} {e : Entry}
    {es : List Entry} {lines more : List String}
    (hitem : TypesItem (addsComma o) isObject lines e (placeSeparator o count slot).toList)
    (hmore : TypesRow (addsComma o) isObject more es) (hslot : slot + 1 + es.length = count)
    (previous : Option String) (group : String) :
    TypesRow (addsComma o) isObject (groupBreak s previous group ++ lines ++ more) (e :: es) := by
  constructor
  · intro line hline
    rw [List.mem_append, List.mem_append] at hline
    rcases hline with (hline | hline) | hline
    · exact groupBreak_tidy hline
    · exact hitem.1 line hline
    · exact hmore.1 line hline
  · intro text htext
    rw [List.append_assoc] at htext
    obtain ⟨first, second, rfl, hfirst, hsecond⟩ := htext.split
    obtain ⟨a, item, after, ha, rfl, hspells, hafter⟩ := hitem.2 _ _ hsecond
    obtain ⟨items, rfl, hitems, hrow⟩ := hmore.2 after hafter
    refine ⟨(e, item) :: items, rfl, ?_, ?_⟩
    · intro x hx
      rcases List.mem_cons.mp hx with rfl | hx
      · exact hspells
      · exact hitems x hx
    · rw [← List.append_assoc, List.map_cons]
      rw [List.length_map] at hslot
      exact hrow.placed ((groupBreak_spaced hfirst).append ha) item blank_nil
        (by rwa [List.length_map])

theorem typesRow_nil (trailing isObject : Bool) : TypesRow trailing isObject [] [] := by
  refine ⟨fun _ h => absurd h List.not_mem_nil, fun text htext => ⟨[], rfl, ?_, ?_⟩⟩
  · exact fun _ h => absurd h List.not_mem_nil
  · cases htext with
    | nil ha => exact .nil ha

/-- The lines of members, given those of each of them, are a row. -/
theorem linesFrom_typesRow (hs : s.rules = Rules.json) {separators : List String}
    (hcommas : Commas false separators) {isObject : Bool} {indent : String} {width : Nat}
    {ms : List (Member × List String)} (htrailing : ∀ m ∈ ms, m.1.info.trailingComments = [])
    (hms : ∀ m ∈ ms, ∀ count slot, TypesItem (addsComma s.options) isObject
      (memberLines s indent width (placeSeparator s.options count slot) m.1 m.2)
      (m.1.entry isObject) (placeSeparator s.options count slot).toList)
    {slot : Nat} (hslot : slot + ms.length = separators.length) (previous : Option String) :
    TypesRow (addsComma s.options) isObject (linesFrom s indent width separators slot previous ms)
      (ms.map fun m => m.1.entry isObject) := by
  induction ms generalizing slot previous with
  | nil => exact typesRow_nil _ _
  | cons m rest ih =>
    obtain ⟨m, inside⟩ := m
    rw [List.length_cons] at hslot
    have hitem := hms _ List.mem_cons_self separators.length slot
    have hrest := ih (fun m hm => htrailing m (List.mem_cons_of_mem _ hm))
      (fun m hm => hms m (List.mem_cons_of_mem _ hm))
      (show slot + 1 + rest.length = separators.length by omega) (some (s.rules.group m.info))
    have htail : slotSeparator s m.info.separator slot separators ++
        writeTrailing s.rules.comments s.options m.info.trailingComments =
        placeSeparator s.options separators.length slot := by
      have hnone : m.info.trailingComments = [] := htrailing (m, inside) List.mem_cons_self
      rw [slotSeparator_eq hs hcommas (by omega), hnone, writeTrailing]
      split <;> exact String.append_empty
    simp only [linesFrom, htail]
    exact hitem.typesRow hrest (by rw [List.length_map]; omega) previous _

theorem linesInsideEach_eq_map (level indent : String) (ms : List Member) :
    linesInsideEach s level indent ms = ms.map fun m => (m, linesInside s level indent m) := by
  induction ms with
  | nil => rfl
  | cons m rest ih => rw [linesInsideEach, ih, List.map_cons]

/-- The lines inside a rearranged member are a row of its children. -/
def TypesInside (s : Setting) (level indent : String) (m : Member) : Prop :=
  ∀ m', m.Rearranged m' → ∀ i children, m' = .group i children →
    TypesRow (addsComma s.options) (i.container == .braces) (linesInside s level indent m')
      (children.map (Member.entry (i.container == .braces)))

/-- The lines of a body, given those inside each of its members, are a row. -/
theorem bodyLinesOf_typesRow (hs : s.rules = Rules.json) {isObject : Bool} {lo hi : Nat}
    {ms ms' : List Member} (hread : ∀ m ∈ ms, Read s.excerpt false isObject m)
    (hcommas : Commas false (ms.map (·.info.separator))) (hlaid : LaidFrom P t hi lo ms)
    (h : Rearranged ms ms') {level indent inner : String} (hindent : Blank indent.toList)
    (hinside : ∀ m ∈ ms, TypesInside s level inner m) :
    TypesRow (addsComma s.options) isObject
      (bodyLinesOf s indent [] (linesInsideEach s level inner ms'))
      (ms'.map (Member.entry isObject)) := by
  have hseparators : (sourceOrder ms').map (·.info.separator) = ms.map (·.info.separator) := by
    have := congrArg (List.map MemberInfo.separator) (sourceOrder_infos hlaid h)
    rwa [List.map_map, List.map_map] at this
  have hlength : ms'.length = ms.length := by
    have := h.infos_perm.length_eq
    rwa [List.length_map, List.length_map] at this
  have hmembers : (ms'.map fun m => (m, linesInside s level inner m)).map (·.1) = ms' := by
    rw [List.map_map]
    exact List.map_id ms'
  have hentries : ms'.map (Member.entry isObject) =
      (ms'.map fun m => (m, linesInside s level inner m)).map fun m => m.1.entry isObject := by
    rw [List.map_map]
    rfl
  have hnone : writeLeading s.rules.comments s.options indent [] = [] := by
    unfold writeLeading
    split <;> rfl
  unfold bodyLinesOf
  simp only [linesInsideEach_eq_map, hmembers, hseparators, hnone, List.map_nil, List.append_nil]
  rw [hentries]
  refine linesFrom_typesRow hs hcommas ?_ ?_ ?_ none
  · intro m hm
    obtain ⟨m, hm', rfl⟩ := List.mem_map.mp hm
    obtain ⟨n, hn, hr⟩ := exists_rearranged h hm'
    obtain ⟨span, unit, label, value, hrecorded, -⟩ := (hread n hn).recorded
    rw [hr.info_eq]
    exact hrecorded.trailing_eq
  · intro m hm count slot
    obtain ⟨m, hm', rfl⟩ := List.mem_map.mp hm
    obtain ⟨n, hn, hr⟩ := exists_rearranged h hm'
    exact (hread n hn).memberLines_typesItem hs (hlaid.of_mem hn).1 hr hindent _ count slot
      fun i children heq _ => hinside n hn m hr i children heq
  · rw [Nat.zero_add, List.length_map, List.length_map, hlength]

/-- The lines inside every member that was read are a row of its children, however these are
rearranged. -/
theorem Read.typesInside (hs : s.rules = Rules.json) {inObject : Bool} {m : Member}
    (hread : Read s.excerpt false inObject m) (hlaid : m.LaidOut P t) {level indent : String}
    (hlevel : Blank level.toList) (hindent : Blank indent.toList) : TypesInside s level indent m := by
  induction hread generalizing indent with
  | leaf =>
    intro m' hm' i children heq
    subst heq
    cases hm'
  | group isObject hrecorded hnested hcontainer hbody hopen hclose hspelled hrow hread ih =>
    intro m' hm' i children heq
    subst heq
    cases hm' with
    | group i hperm heach =>
      obtain ⟨-, -, -, body', -, hbody', -, -, hlaidFrom⟩ := hlaid
      obtain rfl := Option.some.inj (hbody.symm.trans hbody')
      rw [hcontainer, bracketsOf_braces, linesInside, hrecorded.dangling_eq]
      refine bodyLinesOf_typesRow hs hread hrow.commas hlaidFrom ⟨_, hperm, heach⟩ hindent
        fun m hm => ih m hm (hlaidFrom.of_mem hm).1 ?_
      rw [String.toList_append]
      exact hindent.append hlevel

end Lines

end MemberOrder.Json
