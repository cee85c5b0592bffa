/-
  The members of a block stand for its entries.

  The unit of a member that stands for an entry is the strip of the entry, and the children of a member
  stand for the entries inside (`Stands`). What stands between the units of members is one of the texts that
  may follow the strips. The members that are found of a block whose entries come apart stand for these
  (`Apart.exists_found`), by induction on the strips.
-/
import MemberOrder.Proofs.Yaml.Apart
import MemberOrder.Proofs.Yaml.Sorting

namespace MemberOrder.Yaml

open LineTable

/-! ## Members that stand for entries -/

/-- The record of a member whose unit reads as an entry alone, whatever of some texts follows it. -/
structure Spelled (load : DataLoader) (tag : Option Tag) (t : Text) (column : Nat) (areItems : Bool)
    (follows : List (List Char)) (part : Data × Data) (i : MemberInfo) (span unit : Span) : Prop where
  placed : Placed t i span unit
  stop_eq : unit.stop = span.stop
  separator_eq : i.separator = ""
  unspread : i.isSpread = false
  reads : ∀ g ∈ follows,
    Reads load tag column areItems (spaces column ++ t.slice unit.start unit.stop ++ g) [part]

section Stands

variable (load : DataLoader) (tag : Option Tag) (o : Options) (t : Text)

mutual

/-- A member stands for an entry at a column, which any of some texts may follow. -/
inductive Stands : (column : Nat) → (areItems : Bool) → (follows : List (List Char)) → Data × Data → Member → Prop
  | leaf {column : Nat} {areItems : Bool} {follows : List (List Char)} {part : Data × Data} {i : MemberInfo}
      {span unit : Span} (h : Spelled load tag t column areItems follows part i span unit) :
      Stands column areItems follows part (.leaf i)
  | group {column : Nat} {areItems : Bool} {follows : List (List Char)} {key : Data} {itag : Option Tag}
      {column' : Nat} {inner : Bool} {follows' : List (List Char)} {parts : Parts} {i : MemberInfo}
      {span unit body : Span} {children : List Member}
      (h : Spelled load tag t column areItems follows (key, blockOf inner itag parts) i span unit)
      (hcontainer : i.container = .brackets ↔ inner = true) (hbody : i.body = some body)
      (hstart : span.start ≤ body.start) (hstop : body.stop ≤ span.stop)
      (hleads : Leads column column' (t.slice unit.start body.start))
      (hfollows : ∀ g ∈ follows, t.slice body.stop unit.stop ++ g ∈ follows')
      (hfits : Fits load tag inner (parts.map (·.1)))
      (hstay : inner = true → ItemsStay o children)
      (hchildren : EachStands column' inner follows' body.start body.stop parts children) :
      Stands column areItems follows (key, blockOf inner itag parts) (.group i children)

/-- Members stand for entries at a column, one after the other between two offsets, with what may follow an
entry between them. -/
inductive EachStands : (column : Nat) → (areItems : Bool) → (follows : List (List Char)) → (lo hi : Nat) →
    Parts → List Member → Prop
  | last {column : Nat} {areItems : Bool} {follows : List (List Char)} {part : Data × Data} {m : Member}
      (h : Stands column areItems follows part m) :
      EachStands column areItems follows m.unitStart m.unitStop [part] [m]
  | cons {column : Nat} {areItems : Bool} {follows : List (List Char)} {lo hi : Nat} {part : Data × Data}
      {parts : Parts} {m : Member} {ms : List Member} {g : List Char}
      (h : Stands column areItems follows part m) (hle : m.unitStop ≤ lo) (hg : g ∈ follows)
      (hbreak : g.getLast? = some '\n') (hgap : t.slice m.unitStop lo = g ++ spaces column)
      (hrest : EachStands column areItems follows lo hi parts ms) :
      EachStands column areItems follows m.unitStart hi (part :: parts) (m :: ms)

end

end Stands

/-- Members that stand for entries go from the start of the first to the end of the last. -/
theorem EachStands.bounds {load : DataLoader} {tag : Option Tag} {o : Options} {t : Text} {column : Nat}
    {areItems : Bool} {follows : List (List Char)} {lo hi : Nat} {parts : Parts} {m : Member} {rest : List Member}
    (h : EachStands load tag o t column areItems follows lo hi parts (m :: rest)) :
    lo = m.unitStart ∧ hi = ((m :: rest).getLast?.getD m).unitStop := by
  induction rest generalizing lo parts m with
  | nil =>
    cases h with
    | last h => exact ⟨rfl, rfl⟩
    | cons _ _ _ _ _ hrest => cases hrest
  | cons next more ih =>
    cases h with
    | cons _ _ _ _ _ hrest =>
      obtain ⟨-, hhi⟩ := ih hrest
      rw [List.getLast?_cons, Option.getD_some] at hhi
      rw [List.getLast?_cons_cons, List.getLast?_cons, Option.getD_some]
      exact ⟨rfl, hhi⟩

/-! ## Places -/

section Places

variable {text : Text} {n c : Nat}

theorem line_ofText (text : Text) (n : Nat) :
    (ofText text).line n = withoutReturn ((whole text).line n) := by
  rw [LineTable.line, LineTable.line]
  split
  · rfl
  · rw [Array.getD_eq_getD_getElem?, Array.getD_eq_getD_getElem?, ofText, whole, List.getElem?_toArray,
      List.getElem?_toArray, List.getElem?_map]
    cases (Text.lines text.toList)[n - 1]? <;> rfl

theorem take_withoutReturn {line : List Char} (h : c ≤ (withoutReturn line).length) :
    (withoutReturn line).take c = line.take c := by
  unfold withoutReturn at h ⊢
  split
  · rename_i hlast
    rw [if_pos hlast, List.length_dropLast] at h
    rw [List.dropLast_eq_take, List.take_take, Nat.min_eq_left h]
  · rfl

/-- What stands in front of a place on its line. -/
theorem LineTable.IsPlace.slice_eq (h : (ofText text).IsPlace n c) :
    text.slice ((ofText text).offset n 0) ((ofText text).offset n c) = ((ofText text).line n).take c := by
  have hlength := Nat.le_trans h.le_length (length_line_ofText_le text n)
  have hline : (whole text).line n = [] ++ (((whole text).line n).take c ++ ((whole text).line n).drop c) := by
    rw [List.nil_append, List.take_append_drop]
  have hholds := holds_line h.pos h.le_count
  rw [hline] at hholds
  have hslice := (plain_whole text).slice_line hholds
  rw [List.length_nil, Nat.zero_add, List.length_take, Nat.min_eq_left hlength] at hslice
  rw [line_ofText, take_withoutReturn (line_ofText text n ▸ h.le_length)]
  exact hslice

/-- What stands before a line ends with a break, if it is anything. -/
theorem LineTable.IsPlace.take_start (h : (ofText text).IsPlace n c) :
    text.toList.take ((ofText text).offset n 0) = [] ∨
      (text.toList.take ((ofText text).offset n 0)).getLast? = some '\n' := by
  have hplain := plain_whole text
  have hholds := holds_line h.pos h.le_count
  obtain ⟨hline, -⟩ := hplain.isLine hholds
  have htake : text.toList.take ((ofText text).offset n 0) = (whole text).upTo n 0 := by
    have hlength : ((whole text).upTo n 0).length = (ofText text).offset n 0 :=
      hplain.length_upTo hholds (Nat.zero_le _)
    have htext : text.toList = _ := hline.eq
    rw [htext, ← hlength, List.take_left]
  rw [htake]
  exact hline.starts

theorem LineTable.IsPlace.getLast?_slice (h : (ofText text).IsPlace n c) {a : Nat}
    (ha : a < (ofText text).offset n 0) :
    (text.slice a ((ofText text).offset n 0)).getLast? = some '\n' := by
  have hsize : (ofText text).offset n 0 ≤ text.size := Nat.le_trans
    (LineTable.IsPlace.offset_le_lineEnd ⟨h.pos, h.le_count, Nat.zero_le _⟩ (Nat.le_refl n) h.le_count)
    (lineEnd_le_size h.pos h.le_count)
  have hlength := text.length_slice (a := a) hsize
  have hne : text.slice a ((ofText text).offset n 0) ≠ [] := by
    intro hnil
    rw [hnil, List.length_nil] at hlength
    omega
  have htake := text.take_append_slice (Nat.le_of_lt ha)
  rcases h.take_start with hnil | hlast
  · rw [← htake] at hnil
    exact absurd (List.append_eq_nil_iff.mp hnil).2 hne
  · rwa [← htake, List.getLast?_append_of_ne_nil _ hne] at hlast

end Places

/-! ## One entry -/

section Entry

variable {text : Text} {floor n column reach : Nat}

/-- The topmost comment above a line is above it and below the floor. -/
theorem topOf_spec (t : LineTable) (floor n : Nat) :
    t.topOf floor n = n ∨ floor < t.topOf floor n ∧ t.topOf floor n < n := by
  unfold topOf
  cases hfirst : (t.commentsAbove floor n).head? with
  | none => exact .inl rfl
  | some c =>
    obtain ⟨hfloor, hlt, -⟩ := place_of_commentsAbove (List.mem_of_head? hfirst)
    exact .inr ⟨hfloor, hlt⟩

theorem lt_topOf (t : LineTable) (h : floor < n) : floor < t.topOf floor n := by
  rcases topOf_spec t floor n with heq | ⟨hlow, -⟩
  · rw [heq]
    exact h
  · exact hlow

/-- The unit of an entry is its strip, if the comments above it start at its column. -/
theorem unit_entry (t : LineTable) (htop : t.topOf floor n = n ∨ t.indent (t.topOf floor n) = column) :
    (t.entry n column reach column floor).unit =
      some (t.span (t.offset (t.topOf floor n) column) (t.lineEnd (t.trimEntry n column reach))) := by
  unfold topOf at htop ⊢
  unfold entry
  cases hfirst : (t.commentsAbove floor n).head? with
  | none => simp only [hfirst, Option.map_none, Option.getD_none]
  | some c =>
    obtain ⟨-, hlt, hoffset⟩ := place_of_commentsAbove (List.mem_of_head? hfirst)
    rw [hfirst, Option.map_some, Option.getD_some] at htop
    have hcolumn : t.indent c.line = column := htop.resolve_left (Nat.ne_of_lt hlt)
    simp only [hfirst, Option.map_some, Option.getD_some, hoffset, hcolumn]

theorem isPlace_top (hcolumn : (ofText text).IsPlace n column)
    (htop : (ofText text).topOf floor n = n ∨ (ofText text).indent ((ofText text).topOf floor n) = column) :
    (ofText text).IsPlace ((ofText text).topOf floor n) column := by
  rcases topOf_spec (ofText text) floor n with heq | ⟨hfloor, hlt⟩
  · rw [heq]
    exact hcolumn
  · have hindent := htop.resolve_left (Nat.ne_of_lt hlt)
    exact ⟨by omega, Nat.le_trans (Nat.le_of_lt hlt) hcolumn.le_count, hindent ▸ indent_le_length _ _⟩

/-- A strip on the lines of a text, from a column on. -/
structure StripAt (text : Text) (column : Nat) (s : Strip) : Prop where
  place : (ofText text).IsPlace s.line column
  reaches : column < ((ofText text).line s.line).length
  top : (ofText text).IsPlace s.top column
  top_le : s.top = s.line ∨ s.top < s.line
  line_le : s.line ≤ s.stop
  stop_le : s.stop ≤ (ofText text).count
  ends : 0 < ((ofText text).line s.stop).length

theorem stripAt_entry (hpos : 1 ≤ n) (hle : n ≤ reach) (hcount : reach ≤ (ofText text).count)
    (hcolumn : column < ((ofText text).line n).length)
    (htop : (ofText text).topOf floor n = n ∨ (ofText text).indent ((ofText text).topOf floor n) = column) :
    StripAt text column
      ⟨(ofText text).topOf floor n, n, (ofText text).trimEntry n column reach⟩ := by
  obtain ⟨hfrom, hto⟩ := (ofText text).le_trimEntry column hle
  have hplace : (ofText text).IsPlace n column := ⟨hpos, by omega, Nat.le_of_lt hcolumn⟩
  exact ⟨hplace, hcolumn, isPlace_top hplace htop, (topOf_spec _ floor n).imp_right (·.2), hfrom,
    Nat.le_trans hto hcount, trimEntry_inked column hle (Nat.zero_lt_of_lt hcolumn)⟩

namespace StripAt

variable {s : Strip}

theorem top_le_start (h : StripAt text column s) :
    (ofText text).offset s.top column ≤ (ofText text).offset s.line column := by
  rcases h.top_le with heq | hlt
  · rw [heq]
  · exact Nat.le_of_lt (h.top.offset_lt h.place hlt)

theorem start_lt_stop (h : StripAt text column s) :
    (ofText text).offset s.line column < (ofText text).lineEnd s.stop := calc
  (ofText text).offset s.line column < (ofText text).lineEnd s.line := Nat.add_lt_add_left h.reaches _
  _ ≤ (ofText text).lineEnd s.stop := lineEnd_mono h.place.pos h.line_le h.stop_le

/-- What stands between a strip and a place below it, of which the line starts with blanks. -/
theorem gap_eq (h : StripAt text column s) {top : Nat} (htop : (ofText text).IsPlace top column)
    (hbelow : s.stop < top) (hblanks : ((ofText text).line top).take column = spaces column) :
    (ofText text).lineEnd s.stop ≤ (ofText text).offset top column ∧
      (text.slice ((ofText text).lineEnd s.stop) ((ofText text).offset top 0)).getLast? = some '\n' ∧
        text.slice ((ofText text).lineEnd s.stop) ((ofText text).offset top column) =
          text.slice ((ofText text).lineEnd s.stop) ((ofText text).offset top 0) ++ spaces column := by
  have hends := isPlace_lineEnd (Nat.le_trans h.place.pos h.line_le) h.stop_le
  have hgap : (ofText text).lineEnd s.stop < (ofText text).offset top 0 :=
    hends.offset_lt ⟨htop.pos, htop.le_count, Nat.zero_le _⟩ hbelow
  have hindent : (ofText text).offset top 0 ≤ (ofText text).offset top column :=
    Nat.add_le_add_left (Nat.zero_le column) _
  refine ⟨Nat.le_trans (Nat.le_of_lt hgap) hindent, htop.getLast?_slice hgap, ?_⟩
  rw [← Text.slice_append text (Nat.le_of_lt hgap) hindent, htop.slice_eq, hblanks]

end StripAt

/-- The record of a member that is an entry, whatever else is known of it. -/
structure IsEntry (text : Text) (column : Nat) (s : Strip) (i : MemberInfo) : Prop where
  span_eq : i.span =
    some ((ofText text).span ((ofText text).offset s.line column) ((ofText text).lineEnd s.stop))
  unit_eq : i.unit =
    some ((ofText text).span ((ofText text).offset s.top column) ((ofText text).lineEnd s.stop))
  text_eq : i.fullText = s.entryText (ofText text) column
  separator_eq : i.separator = ""
  unspread : i.isSpread = false

theorem isEntry_entry (name : String) (value : MemberOrder.Value)
    (htop : (ofText text).topOf floor n = n ∨ (ofText text).indent ((ofText text).topOf floor n) = column) :
    IsEntry text column ⟨(ofText text).topOf floor n, n, (ofText text).trimEntry n column reach⟩
      { (ofText text).entry n column reach column floor with name := name, value := value } :=
  ⟨rfl, unit_entry (ofText text) htop, rfl, rfl, rfl⟩

variable {s : Strip} {i : MemberInfo} {load : DataLoader} {tag : Option Tag} {areItems : Bool}
  {follows : List (List Char)} {part : Data × Data}

theorem IsEntry.spelled (h : IsEntry text column s i) (hs : StripAt text column s)
    (hreads : ∀ g ∈ follows,
      Reads load tag column areItems (spaces column ++ s.text (ofText text) column ++ g) [part]) :
    Spelled load tag text column areItems follows part i
      ((ofText text).span ((ofText text).offset s.line column) ((ofText text).lineEnd s.stop))
      ((ofText text).span ((ofText text).offset s.top column) ((ofText text).lineEnd s.stop)) where
  placed := ⟨h.span_eq, h.unit_eq, hs.top_le_start, hs.start_lt_stop, Nat.le_refl _, h.text_eq⟩
  stop_eq := rfl
  separator_eq := h.separator_eq
  unspread := h.unspread
  reads := hreads

/-- What is nested in an entry does not change where it is. -/
theorem IsEntry.attached (h : IsEntry text column s i) (t : LineTable) (value : Node) (members : NodeMembers) :
    IsEntry text column s (attachNested t i value members).info := by
  unfold attachNested
  split
  · exact h
  · split
    · split
      · exact h
      · exact ⟨h.span_eq, h.unit_eq, h.text_eq, h.separator_eq, h.unspread⟩
    · exact h

theorem IsEntry.unitStart_eq {m : Member} (h : IsEntry text column s m.info) :
    m.unitStart = (ofText text).offset s.top column := by
  rw [Member.unitStart, h.unit_eq]
  rfl

theorem IsEntry.unitStop_eq {m : Member} (h : IsEntry text column s m.info) :
    m.unitStop = (ofText text).lineEnd s.stop := by
  rw [Member.unitStop, h.unit_eq]
  rfl

theorem IsEntry.endLine (h : IsEntry text column s i) (hs : StripAt text column s) :
    (i.span.map (·.endLine)).getD 0 = s.stop := by
  rw [h.span_eq]
  exact endLine_span (Nat.le_trans hs.place.pos hs.line_le) hs.stop_le hs.ends hs.start_lt_stop

end Entry

/-! ## All entries of a block -/

section Block

variable {text : Text} {load : DataLoader} {tag : Option Tag} {o : Options} {skipped column last floor : Nat}
  {areItems : Bool} {after follows : List (List Char)}

/-- The member of an entry with a strip stands for the entry, wherever the entry is found. -/
def StandsAt (load : DataLoader) (tag : Option Tag) (o : Options) (text : Text) (skipped column : Nat)
    (areItems : Bool) (follows : List (List Char)) (s : Strip) (child : Data × Node) : Prop :=
  ∀ i, IsEntry text column s i → i.line = s.line → StripAt text column s →
    Stands load tag o text column areItems follows (child.1, dataOf child.2)
      (attachNested (ofText text) i child.2 (membersOf (ofText text) skipped child.2))

/-- What is known of the members that stand for the entries of a block with some strips. -/
structure StandFor (load : DataLoader) (tag : Option Tag) (o : Options) (text : Text) (column last : Nat)
    (areItems : Bool) (after follows : List (List Char)) (ss : List Strip) (parts : Parts) (ms : List Member) :
    Prop where
  stands : ∃ hi, EachStands load tag o text column areItems follows ((ms.head?.map Member.unitStart).getD 0) hi
    parts ms ∧ hi ≤ (ofText text).lineEnd last ∧
      ∀ g ∈ after, text.slice hi ((ofText text).lineEnd last) ++ g ∈ follows
  entries : List.Forall₂ (fun s m => IsEntry text column s m.info) ss ms

/-- The lines on which some entries start. -/
structure StartLines (text : Text) (column last : Nat) (lines : List Nat) : Prop where
  sorted : lines.Pairwise (· < ·)
  within : ∀ n ∈ lines, 1 ≤ n ∧ n ≤ last ∧ column < ((ofText text).line n).length
  last_le : last ≤ (ofText text).count

theorem StartLines.tail {n : Nat} {lines : List Nat} (h : StartLines text column last (n :: lines)) :
    StartLines text column last lines :=
  ⟨(List.pairwise_cons.mp h.sorted).2, fun m hm => h.within m (List.mem_cons_of_mem n hm), h.last_le⟩

/-- The line to which the first of some entries reaches at most. -/
theorem StartLines.reach {n : Nat} {lines : List Nat} (h : StartLines text column last (n :: lines)) :
    n ≤ (lines.head?.map (· - 1)).getD last ∧ (lines.head?.map (· - 1)).getD last ≤ last := by
  have hn := (h.within n List.mem_cons_self).2.1
  cases lines with
  | nil => exact ⟨hn, Nat.le_refl _⟩
  | cons next more =>
    have hlt := (List.pairwise_cons.mp h.sorted).1 next List.mem_cons_self
    have hnext := (h.within next (by simp)).2.1
    show n ≤ next - 1 ∧ next - 1 ≤ last
    omega

variable {n : Nat} {lines : List Nat} {children : List (Data × Node)}
  {place : (floor number stop : Nat) → Member} {lastStop : Nat → Nat}

/-- The entry on the first of some lines. -/
theorem standsAt_first (hlines : StartLines text column last (n :: lines)) {s : Strip} {child : Data × Node}
    {ss : List Strip} (hs : strips (ofText text) column last floor (n :: lines) = s :: ss)
    (hplace : Sited.Places (ofText text) skipped column place n child)
    (hcomments : s.top = s.line ∨ (ofText text).indent s.top = column)
    (hstands : StandsAt load tag o text skipped column areItems follows s child) :
    let m := place floor n ((lines.head?.map (· - 1)).getD last)
    StripAt text column s ∧ IsEntry text column s m.info ∧
      Stands load tag o text column areItems follows (child.1, dataOf child.2) m := by
  intro m
  obtain ⟨hpos, -, hcolumn⟩ := hlines.within n List.mem_cons_self
  obtain ⟨hle, hreach⟩ := hlines.reach
  obtain ⟨rfl, -⟩ := List.cons.inj hs
  have hat := stripAt_entry hpos hle (Nat.le_trans hreach hlines.last_le) hcolumn hcomments
  obtain ⟨name, value, hm⟩ := hplace
  have hm := hm floor ((lines.head?.map (· - 1)).getD last)
  have hentry : IsEntry text column _ { (ofText text).entry n column ((lines.head?.map (· - 1)).getD last) column
      floor with name := name, value := value } := isEntry_entry name value hcomments
  refine ⟨hat, ?_, ?_⟩
  · show IsEntry text column _ (place floor n _).info
    rw [hm]
    exact hentry.attached _ _ _
  · show Stands load tag o text column areItems follows _ (place floor n _)
    rw [hm]
    exact hstands _ hentry rfl hat

/-- The strip of the next entry starts below that of the first. -/
theorem StartLines.gap_eq {next top : Nat} {more : List Nat}
    (hlines : StartLines text column last (n :: next :: more))
    (hat : StripAt text column ⟨top, n, (ofText text).trimEntry n column (next - 1)⟩)
    (hcomments : (ofText text).topOf ((ofText text).trimEntry n column (next - 1)) next = next ∨
      (ofText text).indent ((ofText text).topOf ((ofText text).trimEntry n column (next - 1)) next) = column)
    (hblanks : ((ofText text).line ((ofText text).topOf ((ofText text).trimEntry n column (next - 1)) next)).take
      column = spaces column) :
    let stop := (ofText text).trimEntry n column (next - 1)
    let below := (ofText text).topOf stop next
    (ofText text).lineEnd stop ≤ (ofText text).offset below column ∧
      (text.slice ((ofText text).lineEnd stop) ((ofText text).offset below 0)).getLast? = some '\n' ∧
        text.slice ((ofText text).lineEnd stop) ((ofText text).offset below column) =
          text.slice ((ofText text).lineEnd stop) ((ofText text).offset below 0) ++ spaces column := by
  intro stop below
  obtain ⟨hpos, hle, hcolumn⟩ := hlines.within next (by simp)
  have htop : (ofText text).IsPlace below column :=
    isPlace_top ⟨hpos, Nat.le_trans hle hlines.last_le, Nat.le_of_lt hcolumn⟩ hcomments
  have hlt := (List.pairwise_cons.mp hlines.sorted).1 next List.mem_cons_self
  have hstop := ((ofText text).le_trimEntry column (Nat.le_sub_one_of_lt hlt)).2
  exact hat.gap_eq htop (lt_topOf _ (Nat.lt_of_le_of_lt hstop (Nat.sub_one_lt_of_lt hlt))) hblanks

/-- Entries that stand on lines with their strips between them are laid out as members that stand for them. -/
theorem standFor_layOut (hlines : StartLines text column last (n :: lines))
    (hstop : ∀ m ∈ n :: lines, lastStop m = last)
    (hplaces : List.Forall₂ (Sited.Places (ofText text) skipped column place) (n :: lines) children)
    (hcomments : ∀ s ∈ strips (ofText text) column last floor (n :: lines),
      s.top = s.line ∨ (ofText text).indent s.top = column)
    (hblanks : ∀ s ∈ (strips (ofText text) column last floor (n :: lines)).tail,
      ((ofText text).line s.top).take column = spaces column)
    (hfollows : ∀ g ∈ followers (ofText text) last after (strips (ofText text) column last floor (n :: lines)),
      g ∈ follows)
    (hstands : List.Forall₂ (StandsAt load tag o text skipped column areItems follows)
      (strips (ofText text) column last floor (n :: lines)) children) :
    StandFor load tag o text column last areItems after follows
      (strips (ofText text) column last floor (n :: lines))
      (children.map fun child => (child.1, dataOf child.2))
      (layOut place floor (withStops lastStop (n :: lines))) := by
  induction lines generalizing n children floor with
  | nil =>
    obtain ⟨child, rest, hplace, hnone, rfl⟩ := List.forall₂_cons_left_iff.mp hplaces
    cases hnone
    obtain ⟨hstand, -⟩ := List.forall₂_cons.mp hstands
    obtain ⟨hat, hentry, hm⟩ := standsAt_first hlines rfl hplace (hcomments _ List.mem_cons_self) hstand
    have hlast : withStops lastStop [n] = [(n, last)] := by
      rw [withStops, hstop n List.mem_cons_self]
    obtain ⟨-, hle⟩ := (ofText text).le_trimEntry column (hlines.within n List.mem_cons_self).2.1
    have hunit : (place floor n last).unitStop =
        (ofText text).lineEnd ((ofText text).trimEntry n column last) := hentry.unitStop_eq
    rw [hlast]
    refine ⟨⟨_, .last hm, ?_, fun g hg => ?_⟩, .cons hentry .nil⟩
    · show (place floor n last).unitStop ≤ _
      rw [hunit]
      exact lineEnd_mono (Nat.le_trans hat.place.pos hat.line_le) hle hlines.last_le
    · show text.slice (place floor n last).unitStop _ ++ g ∈ follows
      rw [hunit]
      exact hfollows _ (List.mem_map_of_mem hg)
  | cons next more ih =>
    obtain ⟨child, rest, hplace, hmore, rfl⟩ := List.forall₂_cons_left_iff.mp hplaces
    obtain ⟨hstand, hothers⟩ := List.forall₂_cons.mp hstands
    obtain ⟨hat, hentry, hm⟩ := standsAt_first hlines rfl hplace (hcomments _ List.mem_cons_self) hstand
    have hend : ((place floor n (next - 1)).info.span.map (·.endLine)).getD 0 =
        (ofText text).trimEntry n column (next - 1) := hentry.endLine hat
    obtain ⟨⟨hi, heach, hhi, hlast⟩, hentries⟩ :=
      @ih ((ofText text).trimEntry n column (next - 1)) _ _ hlines.tail
        (fun m hm => hstop m (List.mem_cons_of_mem n hm)) hmore
        (fun s hs => hcomments s (List.mem_cons_of_mem _ hs))
        (fun s hs => hblanks s (List.mem_of_mem_tail hs))
        (fun g hg => hfollows g (List.mem_cons_of_mem _ hg)) hothers
    have hlaid : layOut place floor (withStops lastStop (n :: next :: more)) = place floor n (next - 1) ::
        layOut place ((ofText text).trimEntry n column (next - 1)) (withStops lastStop (next :: more)) := by
      rw [withStops, layOut, hend]
    rw [hlaid]
    refine ⟨⟨hi, ?_, hhi, hlast⟩, .cons hentry hentries⟩
    generalize layOut place ((ofText text).trimEntry n column (next - 1)) (withStops lastStop (next :: more)) = ms
      at heach hentries
    obtain ⟨m', ms', hentry', -, rfl⟩ := List.forall₂_cons_left_iff.mp hentries
    obtain ⟨hgap, hbreak, hslice⟩ := hlines.gap_eq hat (hcomments _ (List.mem_cons_of_mem _ List.mem_cons_self))
      (hblanks _ List.mem_cons_self)
    have hunit : (place floor n (next - 1)).unitStop =
        (ofText text).lineEnd ((ofText text).trimEntry n column (next - 1)) := hentry.unitStop_eq
    refine .cons hm ?_ (hfollows _ List.mem_cons_self) hbreak ?_ heach
    · show (place floor n (next - 1)).unitStop ≤ m'.unitStart
      rw [hunit, hentry'.unitStart_eq]
      exact hgap
    · show text.slice (place floor n (next - 1)).unitStop m'.unitStart = _
      rw [hunit, hentry'.unitStart_eq]
      exact hslice

/-! ## Blocks whose entries come apart -/

theorem Sited.startLines {node : Node} (h : Sited (ofText text) skipped floor last column areItems lines node)
    (hcount : last ≤ (ofText text).count) : lines ≠ [] ∧ StartLines text column last lines := by
  have hstarts {first : Nat} {others : List Nat} (hpos : 1 ≤ first)
      (hlines : EntryLines (ofText text) areItems column last first others) :
      StartLines text column last (first :: others) := by
    refine ⟨hlines.sorted, fun n hn => ?_, hcount⟩
    obtain ⟨hle, hlast⟩ := hlines.le_of_mem hn
    refine ⟨Nat.le_trans hpos hle, hlast, ?_⟩
    rcases List.mem_cons.mp hn with rfl | hn
    · exact hlines.reaches
    · obtain ⟨-, hidle, hindent, -⟩ := hlines.starts n hn
      rw [isIdle, Bool.or_eq_false_iff] at hidle
      exact hindent ▸ indent_lt_length hidle.1
  cases h with
  | @mapping first others entries f hrole hat hkeys hlines =>
    have hmem : first ∈ entries.map fun e => lineOf skipped e.1 := hat ▸ List.mem_cons_self
    obtain ⟨e, -, rfl⟩ := List.mem_map.mp hmem
    exact ⟨List.cons_ne_nil _ _, hstarts (Nat.succ_pos _) hlines⟩
  | sequence hrole htag hat hdash hlength hlines =>
    exact ⟨List.cons_ne_nil _ _, hstarts (Nat.lt_of_le_of_lt (Nat.zero_le _) hat.1) hlines⟩

/-- The members of a block that comes apart are found, and they stand for its entries. -/
structure Found (load : DataLoader) (tag : Option Tag) (o : Options) (text : Text) (skipped floor last : Nat)
    (after : List (List Char)) (column : Nat) (areItems : Bool) (first : Strip) (node : Node)
    (follows : List (List Char)) (hi : Nat) (m : Member) (rest : List Member) : Prop where
  members : membersOf (ofText text) skipped node floor last = some (m :: rest)
  divided : isDivided node = true ∧ node.form.flow = false
  stands : EachStands load tag o text column areItems follows ((ofText text).offset first.top column) hi
    (partsOf node) (m :: rest)
  entry : IsEntry text column first m.info
  top : (ofText text).IsPlace first.top column ∧ (first.top = first.line ∨ floor < first.top)
  stop_le : hi ≤ (ofText text).lineEnd last
  follows : ∀ g ∈ after, text.slice hi ((ofText text).lineEnd last) ++ g ∈ follows
  fits : Fits load tag areItems ((partsOf node).map (·.1))
  stay : areItems = true → ItemsStay o (m :: rest)
  data : dataOf node = blockOf areItems node.form.tag (partsOf node)
  isMapping : isMapping node = !areItems

/-- Items stay in order if their strips show no alias of an anchor below them. -/
theorem itemsStay_of_entries {ss : List Strip} {ms : List Member}
    (h : List.Forall₂ (fun s m => IsEntry text column s m.info) ss ms)
    (hmarks : o.preserveAnchorsAndAliases = true → ss.Pairwise fun a b =>
      ∀ name ∈ Order.aliasesIn (a.entryText (ofText text) column),
        name ∉ Order.anchorsIn (b.entryText (ofText text) column)) : ItemsStay o ms := by
  have htexts : List.Forall₂ Eq (ss.map (Strip.entryText (ofText text) column)) (ms.map (·.info.fullText)) :=
    List.forall₂_map_left_iff.mpr (List.forall₂_map_right_iff.mpr (h.imp fun _ _ h => h.text_eq.symm))
  rw [List.forall₂_eq_eq_eq] at htexts
  refine ⟨fun m hm => ?_, fun hpreserve => ?_⟩
  · obtain ⟨j, hj, rfl⟩ := List.mem_iff_getElem.mp hm
    exact (List.forall₂_iff_get.mp h).2 j ((List.forall₂_iff_get.mp h).1 ▸ hj) hj |>.unspread
  · have hnone : (ss.map (Strip.entryText (ofText text) column)).Pairwise fun a b =>
        ∀ name ∈ Order.aliasesIn a, name ∉ Order.anchorsIn b := List.pairwise_map.mpr (hmarks hpreserve)
    rw [htexts] at hnone
    exact (List.pairwise_map.mp hnone).imp fun hfree => fun ⟨name, hname, hname'⟩ => hfree name hname hname'

end Block

section Found

variable {text : Text} {load : DataLoader} {tag : Option Tag} {o : Options} {skipped : Nat}

/-- An entry whose value is no block of members stands for itself. -/
theorem standsAt_leaf {column : Nat} {areItems : Bool} {follows : List (List Char)} {s : Strip} {key : Data}
    {value : Node} (hreads : ∀ g ∈ follows, Reads load tag column areItems
      (spaces column ++ s.text (ofText text) column ++ g) [(key, dataOf value)])
    (hleaf : isDivided value = false ∨ value.form.flow = true ∨
      membersOf (ofText text) skipped value s.line s.stop = none) :
    StandsAt load tag o text skipped column areItems follows s (key, value) := by
  intro i hentry hline hat
  have hinfo : attachNested (ofText text) i value (membersOf (ofText text) skipped value) = .leaf i := by
    unfold attachNested
    rw [hentry.endLine hat, hline]
    split
    · rfl
    · rename_i hdivided
      rw [Bool.or_eq_true, not_or, Bool.not_eq_true, Bool.not_eq_true, Bool.not_eq_false'] at hdivided
      rcases hleaf with hnot | hflow | hnone
      · rw [hnot] at hdivided
        cases hdivided.1
      · rw [hflow] at hdivided
        cases hdivided.2
      · rw [hnone]
        split
        · rename_i heq
          cases heq
        · rfl
  rw [hinfo]
  exact .leaf (hentry.spelled hat hreads)

/-- An entry with a block below its start has the members of the block nested in it. -/
theorem attachNested_eq_group {s : Strip} {column column' : Nat} {after follows' : List (List Char)} {inner : Bool}
    {first : Strip} {value : Node} {hi : Nat} {m : Member} {rest : List Member}
    (h : Found load tag o text skipped s.line s.stop after column' inner first value follows' hi m rest)
    {i : MemberInfo} (hentry : IsEntry text column s i) (hline : i.line = s.line)
    (hat : StripAt text column s)
    (hbelow : (ofText text).offset s.line column < (ofText text).offset first.line column') :
    attachNested (ofText text) i value (membersOf (ofText text) skipped value) =
      .group { i with
        hasNestedObject := true
        container := if isMapping value then .braces else .brackets
        body := some ((ofText text).span m.unitStart ((m :: rest).getLast?.getD m).unitStop) }
        (m :: rest) := by
  have hlater : ¬ (m.info.span.map (·.start)).getD 0 ≤ (ofText text).offset s.line column := by
    rw [h.entry.span_eq]
    exact Nat.not_le.mpr hbelow
  unfold attachNested
  rw [hentry.endLine hat, hline, h.members, h.divided.1, h.divided.2, hentry.span_eq]
  exact if_neg hlater

/-- An entry whose value is a block that comes apart stands for itself with what is inside. -/
theorem standsAt_nest {column : Nat} {areItems : Bool} {follows : List (List Char)} {s : Strip} {key : Data}
    {value : Node} {column' : Nat} {inner : Bool} {first : Strip} (hreads : ∀ g ∈ follows,
      Reads load tag column areItems (spaces column ++ s.text (ofText text) column ++ g) [(key, dataOf value)])
    (hbelow : (ofText text).offset s.line column < (ofText text).offset first.line column')
    (hleads : Leads column column'
      (text.slice ((ofText text).offset s.top column) ((ofText text).offset first.top column')))
    (hfound : s.stop ≤ (ofText text).count → ∃ follows' hi m rest,
      Found load tag o text skipped s.line s.stop follows column' inner first value follows' hi m rest) :
    StandsAt load tag o text skipped column areItems follows s (key, value) := by
  intro i hentry hline hat
  obtain ⟨follows', hi, m, rest, hfound⟩ := hfound hat.stop_le
  obtain ⟨hlo, hhi⟩ := hfound.stands.bounds
  have hspelled := hentry.spelled hat hreads
  rw [hfound.data] at hspelled ⊢
  rw [attachNested_eq_group hfound hentry hline hat hbelow]
  refine @Stands.group load tag o text column areItems follows _ _ column' _ follows' _ _ _ _
    ((ofText text).span m.unitStart ((m :: rest).getLast?.getD m).unitStop) _
    ⟨⟨hspelled.placed.span_eq, hspelled.placed.unit_eq, hspelled.placed.leads, hspelled.placed.nonempty,
      hspelled.placed.follows, hspelled.placed.text⟩, rfl, hspelled.separator_eq, hspelled.unspread,
      hspelled.reads⟩ ?_ rfl ?_ ?_ ?_ ?_ hfound.fits hfound.stay ?_
  · show (if isMapping value = true then Container.braces else .brackets) = .brackets ↔ _
    rw [hfound.isMapping]
    cases inner <;> decide
  · show (ofText text).offset s.line column ≤ m.unitStart
    rw [hfound.entry.unitStart_eq]
    obtain ⟨hplace, heq | hlt⟩ := hfound.top
    · rw [heq]
      exact Nat.le_of_lt hbelow
    · exact Nat.le_of_lt (hat.place.offset_lt hplace hlt)
  · show ((m :: rest).getLast?.getD m).unitStop ≤ (ofText text).lineEnd s.stop
    rw [← hhi]
    exact hfound.stop_le
  · show Leads column column' (text.slice _ m.unitStart)
    rw [hfound.entry.unitStart_eq]
    exact hleads
  · intro g hg
    have hafter := hfound.follows g hg
    rw [hhi] at hafter
    exact hafter
  · show EachStands load tag o text column' inner follows' m.unitStart ((m :: rest).getLast?.getD m).unitStop _ _
    rw [← hhi, ← hlo]
    exact hfound.stands

mutual

/-- Strips of entries that come apart are those of members that stand for the entries. -/
theorem EachApart.standsAt {column : Nat} {areItems : Bool} {follows : List (List Char)} {ss : List Strip}
    {children : List (Data × Node)} (h : EachApart load tag o.preserveAnchorsAndAliases (ofText text) skipped
      column areItems follows ss children) :
    List.Forall₂ (StandsAt load tag o text skipped column areItems follows) ss children := by
  match h with
  | .nil => exact .nil
  | .leaf hreads hleaf hrest =>
    exact .cons (standsAt_leaf hreads hleaf) hrest.standsAt
  | .nest hreads hbelow hleads happart hrest =>
    exact .cons (standsAt_nest hreads hbelow hleads fun hcount => happart.exists_found hcount) hrest.standsAt

/-- The members of a block that comes apart are found. -/
theorem Apart.exists_found {floor last : Nat} {after : List (List Char)} {column : Nat} {areItems : Bool}
    {first : Strip} {node : Node} (h : Apart load tag o.preserveAnchorsAndAliases (ofText text) skipped floor last
      after column areItems first node)
    (hcount : last ≤ (ofText text).count) :
    ∃ follows hi m rest, Found load tag o text skipped floor last after column areItems first node follows hi m
      rest := by
  match h with
  | .block hflow hsited hstrips hcomments hblanks hmarks hfits hinside =>
    obtain ⟨place, lastStop, hmembers, hstop, hplaces⟩ := hsited.members_eq
    obtain ⟨hne, hlines⟩ := hsited.startLines hcount
    obtain ⟨n, more, rfl⟩ := List.exists_cons_of_ne_nil hne
    have hstands := hinside.standsAt
    rw [← hstrips] at hcomments hstands hmarks
    obtain ⟨⟨hi, heach, hhi, hafter⟩, hentries⟩ :=
      standFor_layOut hlines hstop hplaces hcomments (by rwa [hstrips]) (fun _ hg => hg) hstands
    have hmembers := hmembers floor (Nat.le_refl floor)
    generalize layOut place floor (withStops lastStop (n :: more)) = ms at hmembers heach hentries
    obtain ⟨m, rest, hentry, -, rfl⟩ := List.forall₂_cons_left_iff.mp hentries
    obtain ⟨rfl, -⟩ := List.cons.inj hstrips
    obtain ⟨hpos, hle, hcolumn⟩ := hlines.within n List.mem_cons_self
    have htop : (ofText text).IsPlace ((ofText text).topOf floor n) column :=
      isPlace_top ⟨hpos, Nat.le_trans hle hcount, Nat.le_of_lt hcolumn⟩ (hcomments _ List.mem_cons_self)
    refine ⟨_, hi, m, rest, hmembers, ⟨hsited.isDivided_eq, hflow⟩, ?_, hentry, ⟨htop, ?_⟩, hhi, hafter, hfits,
      fun hitems => itemsStay_of_entries hentries (hmarks hitems), hsited.dataOf_eq, ?_⟩
    · rw [← hentry.unitStart_eq]
      exact heach
    · exact (topOf_spec _ floor n).imp_right (·.1)
    · cases hsited <;> rfl

end

end Found

end MemberOrder.Yaml
