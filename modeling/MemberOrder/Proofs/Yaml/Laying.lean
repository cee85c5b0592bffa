/-
  The members of a block lie one below the other on the lines of their document.

  Offsets of different lines are in the order of the lines (`IsPlace.offset_lt`), so it is enough to
  count lines. An entry starts at a column of its line, ends with a line that is not empty, and has its
  comments below a floor (`Row`). The floor of the next entry is the line on which this one ends
  (`Row.endLine`), so entries that are laid out on increasing lines are rows, one below the other
  (`rows_layOut`), whatever the lines between them hold. Children are looked for from the line of their
  parent on; they are kept only if the first of them starts after it, and then all of them do
  (`Rows.startsInside`). That is how the mapping of an alias, whose keys are above, has no children.

  The induction is on what is asked of the nodes (`Reported`): that keys are at places of lines, and not
  below the entry whose value they are in. A key with a question mark may have its value below what the
  lines show as its entry; such a node is not `Reported`.
-/
import MemberOrder.Proofs.Placement.Reading
import MemberOrder.Proofs.Yaml.Spans

namespace MemberOrder.Yaml

namespace LineTable

/-! ## The order of lines -/

section Order

variable {text : Text} {n m c d : Nat}

theorem lineAt_mono (t : LineTable) {a b : Nat} (h : a ≤ b) : t.index.lineAt a ≤ t.index.lineAt b := by
  refine List.countP_mono_left fun start _ hstart => ?_
  rw [decide_eq_true_eq] at hstart ⊢
  omega

theorem IsPlace.lineAt_offset (h : (ofText text).IsPlace n c) :
    (ofText text).index.lineAt ((ofText text).offset n c) = n :=
  (plain_whole text).lineAt_eq (holds_line h.pos h.le_count)
    (Nat.le_trans h.le_length (length_line_ofText_le text n))

/-- Places of different lines are in the order of their lines. -/
theorem IsPlace.offset_lt (h : (ofText text).IsPlace n c) (h' : (ofText text).IsPlace m d) (hlt : n < m) :
    (ofText text).offset n c < (ofText text).offset m d := by
  refine Nat.lt_of_not_le fun hge => ?_
  have hat := lineAt_mono (ofText text) hge
  rw [h.lineAt_offset, h'.lineAt_offset] at hat
  omega

theorem IsPlace.line_le (h : (ofText text).IsPlace n c) (h' : (ofText text).IsPlace m d)
    (hlt : (ofText text).offset n c < (ofText text).offset m d) : n ≤ m := by
  refine Nat.le_of_not_lt fun hgt => ?_
  have := h'.offset_lt h hgt
  omega

theorem IsPlace.lineStart_le (h : (ofText text).IsPlace n c) (hpos : 1 ≤ m) (hle : m ≤ n) :
    (ofText text).offset m 0 ≤ (ofText text).offset n c := by
  rcases Nat.eq_or_lt_of_le hle with rfl | hlt
  · exact Nat.add_le_add_left (Nat.zero_le c) _
  · have hcount := h.le_count
    exact Nat.le_of_lt (IsPlace.offset_lt ⟨hpos, by omega, Nat.zero_le _⟩ h hlt)

/-- The end of a line of the text is a place. -/
theorem isPlace_lineEnd {t : LineTable} (hpos : 1 ≤ n) (hcount : n ≤ t.count) :
    t.IsPlace n (t.line n).length :=
  ⟨hpos, hcount, Nat.le_refl _⟩

theorem lineEnd_mono (hpos : 1 ≤ n) (hle : n ≤ m) (hcount : m ≤ (ofText text).count) :
    (ofText text).lineEnd n ≤ (ofText text).lineEnd m :=
  (isPlace_lineEnd hpos (Nat.le_trans hle hcount)).offset_le_lineEnd hle hcount

/-- The last character of a line that is not empty is on it. -/
theorem lineAt_lineEnd_pred (hpos : 1 ≤ n) (hcount : n ≤ (ofText text).count)
    (hinked : 0 < ((ofText text).line n).length) :
    (ofText text).index.lineAt ((ofText text).lineEnd n - 1) = n := by
  have hlast : (ofText text).lineEnd n - 1 =
      (ofText text).offset n (((ofText text).line n).length - 1) := by
    rw [lineEnd, offset, offset]
    omega
  rw [hlast]
  exact IsPlace.lineAt_offset ⟨hpos, hcount, Nat.sub_le _ _⟩

theorem endLine_span {start : Nat} (hpos : 1 ≤ n) (hcount : n ≤ (ofText text).count)
    (hinked : 0 < ((ofText text).line n).length) (hstart : start < (ofText text).lineEnd n) :
    ((ofText text).span start ((ofText text).lineEnd n)).endLine = n := by
  have hmax : max start ((ofText text).lineEnd n - 1) = (ofText text).lineEnd n - 1 := by omega
  show (ofText text).index.lineAt (max start ((ofText text).lineEnd n - 1)) = n
  rw [hmax, lineAt_lineEnd_pred hpos hcount hinked]

end Order

/-! ## Lines that are not blank -/

variable {t : LineTable} {number column stop : Nat}

theorem indent_lt_length (h : t.isBlank number = false) : t.indent number < (t.line number).length := by
  rw [isBlank, Text.isBlank] at h
  rw [indent, indentOf]
  generalize t.line number = line at h
  induction line with
  | nil => cases h
  | cons c rest ih =>
    rw [List.all_cons] at h
    rw [List.takeWhile_cons, List.length_cons]
    cases hspace : Text.isSpace c with
    | false =>
      rw [if_neg (by decide), List.length_nil]
      omega
    | true =>
      rw [hspace, Bool.true_and] at h
      rw [if_pos rfl, List.length_cons]
      exact Nat.succ_lt_succ (ih h)

/-- An extent is cut back to its first line, or to one that is not blank. -/
theorem trimEntry_inked (column : Nat) (hle : number ≤ stop)
    (hinked : 0 < (t.line number).length) : 0 < (t.line (t.trimEntry number column stop)).length := by
  induction stop with
  | zero =>
    obtain rfl : number = 0 := by omega
    exact hinked
  | succ stop ih =>
    rw [trimEntry]
    split
    · rename_i hcut
      rw [Bool.and_eq_true, decide_eq_true_eq] at hcut
      exact ih (by omega)
    · rename_i hkept
      rcases Nat.eq_or_lt_of_le hle with rfl | hlt
      · exact hinked
      · rw [decide_eq_true hlt, Bool.true_and, Bool.or_eq_true, not_or] at hkept
        exact Nat.zero_lt_of_lt (indent_lt_length (Bool.not_eq_true _ ▸ hkept.1))

end LineTable

open LineTable

variable {text : Text} {t : LineTable} {floor number stop column last : Nat}

/-! ## Rows -/

/-- A member that starts on line `number` and ends with line `stop`. The comments above it are below line
`floor`. -/
structure Row (t : LineTable) (floor number stop : Nat) (m : Member) : Prop where
  pos : 1 ≤ number
  le : number ≤ stop
  le_count : stop ≤ t.count
  inked : 0 < (t.line stop).length
  spans : ∃ column top side, column < (t.line number).length ∧
    (top = number ∧ side = column ∨ floor < top ∧ top < number ∧ side ≤ (t.line top).length) ∧
    m.info.span = some (t.span (t.offset number column) (t.lineEnd stop)) ∧
    m.info.unit = some (t.span (t.offset top side) (t.lineEnd stop))

/-- Members one below the other, of which the first starts on line `number` and none ends below line
`last`. -/
inductive Rows (t : LineTable) (last : Nat) : (floor number : Nat) → List Member → Prop
  | single {floor number stop : Nat} {m : Member} (h : Row t floor number stop m) (hle : stop ≤ last) :
      Rows t last floor number [m]
  | cons {floor number stop next : Nat} {m : Member} {ms : List Member} (h : Row t floor number stop m)
      (hlt : stop < next) (hrest : Rows t last stop next ms) : Rows t last floor number (m :: ms)

/-- The span and the unit of a member that starts at a place. -/
theorem Row.placed {m : Member} (h : Row t floor number stop m) :
    ∃ column top side, t.IsPlace number column ∧ column < (t.line number).length ∧ t.IsPlace top side ∧
      (top = number ∧ side = column ∨ floor < top ∧ top < number) ∧
      m.info.span = some (t.span (t.offset number column) (t.lineEnd stop)) ∧
      m.info.unit = some (t.span (t.offset top side) (t.lineEnd stop)) := by
  obtain ⟨column, top, side, hcolumn, hwhere, hspan, hunit⟩ := h.spans
  have hpos := h.pos
  have hle := Nat.le_trans h.le h.le_count
  refine ⟨column, top, side, ⟨hpos, hle, Nat.le_of_lt hcolumn⟩, hcolumn, ?_, ?_, hspan, hunit⟩
  · rcases hwhere with ⟨rfl, rfl⟩ | ⟨hfloor, hlt, hside⟩
    · exact ⟨hpos, hle, Nat.le_of_lt hcolumn⟩
    · exact ⟨by omega, by omega, hside⟩
  · exact hwhere.imp_right fun hw => ⟨hw.1, hw.2.1⟩

/-- The member of an entry, whatever else is known of it. -/
theorem row_entry {keyColumn reach : Nat} {m : Member} (hpos : 1 ≤ number) (hle : number ≤ reach)
    (hcount : reach ≤ t.count) (hcolumn : keyColumn < (t.line number).length)
    (hspan : m.info.span = (t.entry number keyColumn reach column floor).span)
    (hunit : m.info.unit = (t.entry number keyColumn reach column floor).unit) :
    Row t floor number (t.trimEntry number column reach) m := by
  obtain ⟨hfrom, hto⟩ := t.le_trimEntry column hle
  refine ⟨hpos, hfrom, by omega, trimEntry_inked column hle (Nat.zero_lt_of_lt hcolumn), ?_⟩
  cases hfirst : (t.commentsAbove floor number).head? with
  | none =>
    refine ⟨keyColumn, number, keyColumn, hcolumn, .inl ⟨rfl, rfl⟩, hspan, hunit.trans ?_⟩
    simp only [entry, hfirst]
    rfl
  | some c =>
    obtain ⟨hfloor, hlt, hoffset⟩ := place_of_commentsAbove (List.mem_of_head? hfirst)
    refine ⟨keyColumn, c.line, t.indent c.line, hcolumn, .inr ⟨hfloor, hlt, t.indent_le_length _⟩, hspan,
      hunit.trans ?_⟩
    simp only [entry, hfirst, Option.map_some, Option.getD_some, hoffset]

theorem Rows.number_le {ms : List Member} (h : Rows t last floor number ms) : number ≤ last := by
  induction h with
  | single h hle => exact Nat.le_trans h.le hle
  | cons h hlt hrest ih =>
    have := h.le
    omega

/-- Each of some rows is a row with comments below the floor of all of them, or below the first. -/
theorem Rows.of_mem {ms : List Member} (h : Rows t last floor number ms) {m : Member} (hm : m ∈ ms) :
    ∃ f n s, Row t f n s m ∧ number ≤ n ∧ s ≤ last ∧ (f = floor ∨ number ≤ f) := by
  induction h with
  | single h hle =>
    obtain rfl := List.mem_singleton.mp hm
    exact ⟨_, _, _, h, Nat.le_refl _, hle, .inl rfl⟩
  | cons h hlt hrest ih =>
    have hle := h.le
    have hnext := hrest.number_le
    rcases List.mem_cons.mp hm with rfl | hm
    · exact ⟨_, _, _, h, Nat.le_refl _, by omega, .inl rfl⟩
    · obtain ⟨f, n, s, hrow, hn, hs, hf⟩ := ih hm
      exact ⟨f, n, s, hrow, by omega, hs, .inr (by omega)⟩

/-- Rows that start below their floor have their units below it. -/
theorem Rows.unit_of_mem {ms : List Member} (h : Rows t last floor number ms) (hfloor : floor < number)
    {m : Member} (hm : m ∈ ms) :
    ∃ top side s, t.IsPlace top side ∧ floor < top ∧ top ≤ s ∧ s ≤ last ∧
      m.info.unit = some (t.span (t.offset top side) (t.lineEnd s)) := by
  obtain ⟨f, n, s, hrow, hn, hs, hf⟩ := h.of_mem hm
  obtain ⟨_, top, side, -, -, hplace, hwhere, -, hunit⟩ := hrow.placed
  have hle := hrow.le
  refine ⟨top, side, s, hplace, ?_, ?_, hs, hunit⟩ <;> rcases hwhere with ⟨rfl, -⟩ | hwhere <;> omega

section Stacks

variable {m : Member} {ms : List Member}

/-- A member of which the last line is above the unit of another. -/
def IsAbove (a b : Member) : Prop :=
  ∃ span unit next, a.info.span = some span ∧ a.info.unit = some unit ∧ b.info.unit = some next ∧
    unit.stop < next.start ∧ span.endLine < next.startLine

/-- A member that is not empty and is in its unit. -/
def InUnit (m : Member) : Prop :=
  ∃ span unit, m.info.span = some span ∧ m.info.unit = some unit ∧ unit.contains span = true ∧
    span.start < span.stop

/-- Members with their units one below the other. -/
structure Stacked (ms : List Member) : Prop where
  above : ms.Pairwise IsAbove
  inUnit : ∀ m ∈ ms, InUnit m

/-- The unit of a row does not start after its span. -/
theorem offset_top_le {top side : Nat} (htop : (ofText text).IsPlace top side)
    (hplace : (ofText text).IsPlace number column)
    (hwhere : top = number ∧ side = column ∨ floor < top ∧ top < number) :
    (ofText text).offset top side ≤ (ofText text).offset number column := by
  rcases hwhere with ⟨rfl, rfl⟩ | ⟨-, hlt⟩
  · exact Nat.le_refl _
  · exact Nat.le_of_lt (htop.offset_lt hplace hlt)

theorem Row.offset_lt_lineEnd (h : Row (ofText text) floor number stop m)
    (hcolumn : column < ((ofText text).line number).length) :
    (ofText text).offset number column < (ofText text).lineEnd stop := by
  have hend : (ofText text).lineEnd number ≤ (ofText text).lineEnd stop := lineEnd_mono h.pos h.le h.le_count
  rw [lineEnd, offset] at hend
  rw [offset]
  omega

theorem Row.inUnit (h : Row (ofText text) floor number stop m) : InUnit m := by
  obtain ⟨column, top, side, hplace, hcolumn, htop, hwhere, hspan, hunit⟩ := h.placed
  have hlt := h.offset_lt_lineEnd hcolumn
  exact ⟨_, _, hspan, hunit, Bool.and_eq_true_iff.mpr
    ⟨decide_eq_true (offset_top_le htop hplace hwhere), decide_eq_true (Nat.le_refl _)⟩, hlt⟩

/-- A row ends on its last line. -/
theorem Row.endLine (h : Row (ofText text) floor number stop m) :
    (m.info.span.map (·.endLine)).getD 0 = stop := by
  obtain ⟨_, _, _, -, hcolumn, -, -, hspan, -⟩ := h.placed
  rw [hspan]
  exact endLine_span (Nat.le_trans h.pos h.le) h.le_count h.inked (h.offset_lt_lineEnd hcolumn)

theorem Rows.stacked (h : Rows (ofText text) last floor number ms) : Stacked ms := by
  induction h with
  | single h hle => exact ⟨List.pairwise_singleton _ _, List.forall_mem_singleton.mpr h.inUnit⟩
  | cons h hlt hrest ih =>
    refine ⟨List.pairwise_cons.mpr ⟨fun b hb => ?_, ih.above⟩,
      List.forall_mem_cons.mpr ⟨h.inUnit, ih.inUnit⟩⟩
    obtain ⟨top, side, s, hplace, htop, -, -, hnext⟩ := hrest.unit_of_mem hlt hb
    obtain ⟨_, _, _, -, -, -, -, hspan, hunit⟩ := h.placed
    have hend := h.endLine
    rw [hspan, Option.map_some, Option.getD_some] at hend
    refine ⟨_, _, _, hspan, hunit, hnext, ?_, ?_⟩
    · exact (isPlace_lineEnd (Nat.le_trans h.pos h.le) h.le_count).offset_lt hplace htop
    · rw [hend]
      exact Nat.lt_of_lt_of_eq htop hplace.lineAt_offset.symm

/-- A member of which the unit is in a span and starts later. -/
def StartsInside (s : Span) (m : Member) : Prop :=
  ∃ unit, m.info.unit = some unit ∧ s.start < unit.start ∧ unit.stop ≤ s.stop

/-- A row that starts after a place on the line above its comments. -/
theorem Row.startsInside (h : Row (ofText text) floor number stop m) (hle : stop ≤ last)
    (hcount : last ≤ (ofText text).count) (hplace : (ofText text).IsPlace floor column)
    (hstart : (ofText text).offset floor column < (m.info.span.map (·.start)).getD 0) :
    floor ≤ number ∧ StartsInside
      ((ofText text).span ((ofText text).offset floor column) ((ofText text).lineEnd last)) m := by
  obtain ⟨keyColumn, top, side, hkey, -, htop, hwhere, hspan, hunit⟩ := h.placed
  rw [hspan, Option.map_some, Option.getD_some] at hstart
  refine ⟨hplace.line_le hkey hstart, _, hunit, ?_, lineEnd_mono (Nat.le_trans h.pos h.le) hle hcount⟩
  rcases hwhere with ⟨rfl, rfl⟩ | ⟨hfloor, -⟩
  · exact hstart
  · exact hplace.offset_lt htop hfloor

/-- Rows of which the first starts after a place on the line above its comments. -/
theorem Rows.startsInside {first : Member} (h : Rows (ofText text) last floor number (first :: ms))
    (hcount : last ≤ (ofText text).count) (hplace : (ofText text).IsPlace floor column)
    (hstart : (ofText text).offset floor column < (first.info.span.map (·.start)).getD 0) :
    ∀ m ∈ first :: ms, StartsInside
      ((ofText text).span ((ofText text).offset floor column) ((ofText text).lineEnd last)) m := by
  cases h with
  | single h hle => exact List.forall_mem_singleton.mpr (h.startsInside hle hcount hplace hstart).2
  | cons h hlt hrest =>
    have hnext := hrest.number_le
    obtain ⟨hfloor, hfirst⟩ := h.startsInside (by omega) hcount hplace hstart
    refine List.forall_mem_cons.mpr ⟨hfirst, fun m hm => ?_⟩
    obtain ⟨top, side, s, htop, hbelow, hs, hlast, hunit⟩ := hrest.unit_of_mem hlt hm
    have hle := h.le
    exact ⟨_, hunit, hplace.offset_lt htop (by omega),
      lineEnd_mono (Nat.le_trans htop.pos hs) hlast hcount⟩

end Stacks

/-! ## Lists of entries -/

/-- A member in which every list of children is a stack in the span of their parent. -/
inductive Laid : Member → Prop
  | leaf (info : MemberInfo) : Laid (.leaf info)
  | group {info : MemberInfo} {children : List Member} {span : Span} (hspan : info.span = some span)
      (hstacked : Stacked children) (hinside : ∀ m ∈ children, StartsInside span m)
      (hlaid : ∀ m ∈ children, Laid m) : Laid (.group info children)

theorem mem_withStops {lastStop : Nat → Nat} {lines : List Nat} {p : Nat × Nat}
    (h : p ∈ withStops lastStop lines) (hsorted : lines.Pairwise (· < ·))
    (hstop : ∀ n ∈ lines, n ≤ lastStop n ∧ lastStop n ≤ last) (hlast : ∀ n ∈ lines, n ≤ last) :
    p.1 ∈ lines ∧ p.1 ≤ p.2 ∧ p.2 ≤ last := by
  induction lines with
  | nil => cases h
  | cons n rest ih =>
    cases rest with
    | nil =>
      obtain rfl := List.mem_singleton.mp h
      exact ⟨List.mem_cons_self, hstop n List.mem_cons_self⟩
    | cons next more =>
      rw [List.pairwise_cons] at hsorted
      rcases List.mem_cons.mp h with rfl | h
      · have hlt := hsorted.1 next List.mem_cons_self
        have hle := hlast next (List.mem_cons_of_mem n List.mem_cons_self)
        exact ⟨List.mem_cons_self, Nat.le_sub_one_of_lt hlt, by omega⟩
      · obtain ⟨hmem, hle, hstop⟩ := ih h hsorted.2 (fun n hn => hstop n (List.mem_cons_of_mem _ hn))
          fun n hn => hlast n (List.mem_cons_of_mem _ hn)
        exact ⟨List.mem_cons_of_mem n hmem, hle, hstop⟩

theorem mem_layOut {place : (floor number stop : Nat) → Member} {pairs : List (Nat × Nat)} {m : Member}
    (h : m ∈ layOut place floor pairs) : ∃ f, ∃ p ∈ pairs, m = place f p.1 p.2 := by
  induction pairs generalizing floor with
  | nil => cases h
  | cons p rest ih =>
    obtain ⟨number, stop⟩ := p
    rw [layOut] at h
    rcases List.mem_cons.mp h with rfl | h
    · exact ⟨floor, _, List.mem_cons_self, rfl⟩
    · obtain ⟨f, p, hp, rfl⟩ := ih h
      exact ⟨f, p, List.mem_cons_of_mem _ hp, rfl⟩

/-- Entries that are laid out on increasing lines are rows. -/
theorem rows_layOut {place : (floor number stop : Nat) → Member} {lines : List Nat}
    (hsorted : (number :: lines).Pairwise (· < ·)) (hlast : ∀ n ∈ number :: lines, n ≤ last)
    (hplace : ∀ f, ∀ p ∈ withStops ((ofText text).regionEnd · last column) (number :: lines),
      Row (ofText text) f p.1 ((ofText text).trimEntry p.1 column p.2) (place f p.1 p.2)) :
    Rows (ofText text) last floor number
      (layOut place floor (withStops ((ofText text).regionEnd · last column) (number :: lines))) := by
  induction lines generalizing floor number with
  | nil =>
    obtain ⟨hfrom, hto⟩ := (ofText text).le_regionEnd column (hlast number List.mem_cons_self)
    obtain ⟨-, hstop⟩ := (ofText text).le_trimEntry column hfrom
    exact .single (hplace floor _ List.mem_cons_self) (Nat.le_trans hstop hto)
  | cons next rest ih =>
    rw [withStops] at hplace ⊢
    rw [List.pairwise_cons] at hsorted
    have hrow := hplace floor _ List.mem_cons_self
    have hlt := hsorted.1 next List.mem_cons_self
    obtain ⟨-, hstop⟩ := (ofText text).le_trimEntry column (Nat.le_sub_one_of_lt hlt)
    rw [layOut, hrow.endLine]
    exact .cons hrow (Nat.lt_of_le_of_lt hstop (Nat.sub_one_lt_of_lt hlt))
      (ih hsorted.2 (fun n hn => hlast n (List.mem_cons_of_mem _ hn))
        fun f p hp => hplace f p (List.mem_cons_of_mem _ hp))

/-- Entries that are laid out on increasing lines, given what each of them is. -/
theorem laid_layOut {place : (floor number stop : Nat) → Member} {lines : List Nat}
    (hsorted : (number :: lines).Pairwise (· < ·)) (hlast : ∀ n ∈ number :: lines, n ≤ last)
    (hplace : ∀ f, ∀ p ∈ withStops ((ofText text).regionEnd · last column) (number :: lines),
      p.1 ∈ number :: lines → p.1 ≤ p.2 → p.2 ≤ last →
        Row (ofText text) f p.1 ((ofText text).trimEntry p.1 column p.2) (place f p.1 p.2) ∧
          Laid (place f p.1 p.2)) :
    let ms := layOut place floor (withStops ((ofText text).regionEnd · last column) (number :: lines))
    Rows (ofText text) last floor number ms ∧ ∀ m ∈ ms, Laid m := by
  have heach (f : Nat) (p : Nat × Nat)
      (hp : p ∈ withStops ((ofText text).regionEnd · last column) (number :: lines)) :=
    have hextent := mem_withStops hp hsorted
      (fun n hn => (ofText text).le_regionEnd column (hlast n hn)) hlast
    hplace f p hp hextent.1 hextent.2.1 hextent.2.2
  refine ⟨rows_layOut hsorted hlast fun f p hp => (heach f p hp).1, fun m hm => ?_⟩
  obtain ⟨f, p, hp, rfl⟩ := mem_layOut hm
  exact (heach f p hp).2

/-- A member with its children, given how these are laid out below its line. -/
theorem laid_attachNested {info : MemberInfo} {value : Node} {members : NodeMembers}
    (hrow : Row (ofText text) floor number stop (.leaf info)) (hline : info.line = number)
    (hmembers : isDivided value = true → value.form.flow = false → ∀ ms, members number stop = some ms →
      ∃ n, Rows (ofText text) stop number n ms ∧ ∀ m ∈ ms, Laid m) :
    Laid (attachNested (ofText text) info value members) := by
  have hend : (info.span.map (·.endLine)).getD 0 = stop := hrow.endLine
  obtain ⟨column, _, _, hplace, -, -, -, hspan, -⟩ := hrow.placed
  have hspan : info.span = _ := hspan
  unfold attachNested
  rw [hend, hline, hspan]
  split
  · exact .leaf info
  · rename_i hdivided
    rw [Bool.or_eq_true, not_or, Bool.not_eq_true, Bool.not_eq_true, Bool.not_eq_false'] at hdivided
    split
    · rename_i span first rest hs hms
      obtain rfl := Option.some.inj hs
      split
      · exact .leaf info
      · rename_i hlater
        obtain ⟨n, hrows, hlaid⟩ := hmembers hdivided.1 hdivided.2 _ hms
        exact .group rfl hrows.stacked
          (hrows.startsInside hrow.le_count hplace (Nat.lt_of_not_le hlater)) hlaid
    · exact .leaf info

/-- An entry with what its value is, given how the members of that are laid out below its line. -/
theorem row_attachNested {keyColumn reach : Nat} {info : MemberInfo} {value : Node} {members : NodeMembers}
    (hpos : 1 ≤ number) (hle : number ≤ reach) (hcount : reach ≤ (ofText text).count)
    (hcolumn : keyColumn < ((ofText text).line number).length) (hline : info.line = number)
    (hspan : info.span = ((ofText text).entry number keyColumn reach column floor).span)
    (hunit : info.unit = ((ofText text).entry number keyColumn reach column floor).unit)
    (hmembers : (ofText text).trimEntry number column reach ≤ (ofText text).count →
      isDivided value = true → value.form.flow = false →
      ∀ ms, members number ((ofText text).trimEntry number column reach) = some ms →
        ∃ n, Rows (ofText text) ((ofText text).trimEntry number column reach) number n ms ∧
          ∀ m ∈ ms, Laid m) :
    Row (ofText text) floor number ((ofText text).trimEntry number column reach)
        (attachNested (ofText text) info value members) ∧
      Laid (attachNested (ofText text) info value members) := by
  obtain ⟨hspan', hunit', -⟩ := Block.info_attachNested (ofText text) info value members
  have hrow : Row (ofText text) floor number ((ofText text).trimEntry number column reach) (.leaf info) :=
    row_entry hpos hle hcount hcolumn hspan hunit
  exact ⟨row_entry hpos hle hcount hcolumn (hspan'.trans hspan) (hunit'.trans hunit),
    laid_attachNested hrow hline (hmembers hrow.le_count)⟩

/-! ## Nodes -/

/-- The lines of sibling entries with the last line of each. -/
def extents (t : LineTable) (column last : Nat) (lines : List Nat) : List (Nat × Nat) :=
  (withStops (t.regionEnd · last column) lines).map fun p => (p.1, t.trimEntry p.1 column p.2)

theorem mem_extents {lines : List Nat} {p : Nat × Nat}
    (h : p ∈ withStops (t.regionEnd · last column) lines) :
    (p.1, t.trimEntry p.1 column p.2) ∈ extents t column last lines :=
  List.mem_map.mpr ⟨p, h, rfl⟩

/-- The lines of siblings come back with their extents. -/
theorem map_fst_withStops (lastStop : Nat → Nat) (lines : List Nat) :
    (withStops lastStop lines).map (·.1) = lines := by
  induction lines with
  | nil => rfl
  | cons n rest ih =>
    cases rest with
    | nil => rfl
    | cons next more => rw [withStops, List.map_cons, ih]

/-- On increasing lines, what is found by the index of a line goes with the extent from that line. -/
theorem mem_zip_extents {α : Type} {lines : List Nat} {items : List α} {item : α} {p : Nat × Nat}
    (hsorted : lines.Pairwise (· < ·)) (hp : p ∈ withStops (t.regionEnd · last column) lines)
    (hitem : items[lines.idxOf p.1]? = some item) :
    ((p.1, t.trimEntry p.1 column p.2), item) ∈ (extents t column last lines).zip items := by
  obtain ⟨j, hj⟩ := List.getElem?_of_mem hp
  have hline : lines[j]? = some p.1 := by
    rw [← map_fst_withStops (t.regionEnd · last column) lines, List.getElem?_map, hj, Option.map_some]
  rw [Block.idxOf_of_pairwise hsorted hline] at hitem
  refine List.mem_of_getElem? (i := j) (List.getElem?_zip_eq_some.mpr ⟨?_, hitem⟩)
  rw [extents, List.getElem?_map, hj, Option.map_some]

/-- The line of a node in a document that starts after some lines. -/
def lineOf (skipped : Nat) (n : Node) : Nat := skipped + n.form.line + 1

/-- The entries with keys of their own: those that are no merges. -/
def ownEntries (entries : List (Node × Node)) : List (Node × Node) := entries.filter fun e => !isMerge e.1

/-- Whether the keys in a block are at places that a loader reports, given the line `last` with which the
entry around it ends, and the line `floor` below which its first dash is looked for. A key is at a column
of a line up to `last`; through an alias it may be above the entry. Nothing is asked of the places of
items, nor of what is not written as a block. -/
inductive Reported (t : LineTable) (skipped : Nat) : (floor last : Nat) → Node → Prop
  | undivided {floor last : Nat} {node : Node} (h : (isDivided node && !node.form.flow) = false) :
      Reported t skipped floor last node
  | mapping {floor last : Nat} {entries : List (Node × Node)} {f : Form}
      (hkeys : ∀ e ∈ ownEntries entries, lineOf skipped e.1 ≤ last ∧
        e.1.form.column < (t.line (lineOf skipped e.1)).length)
      (hvalues : ∀ top ∈ ownEntries entries,
        (∀ e ∈ ownEntries entries, lineOf skipped top.1 ≤ lineOf skipped e.1) →
        ∀ p ∈ extents t top.1.form.column last
          (t.keyLines top.1.form.column (lineOf skipped top.1) last),
        ∀ e ∈ ownEntries entries, lineOf skipped e.1 = p.1 → Reported t skipped p.1 p.2 e.2) :
      Reported t skipped floor last (.mapping entries f)
  | sequence {floor last : Nat} {items : List Node} {f : Form}
      (hitems : ∀ first, items.head? = some first →
        ∀ dash, dashLine? t floor (lineOf skipped first) = some dash →
        (t.itemLines (t.indent dash) dash last).length = items.length →
        ∀ p ∈ (extents t (t.indent dash) last (t.itemLines (t.indent dash) dash last)).zip items,
          Reported t skipped p.1.1 p.1.2 p.2) :
      Reported t skipped floor last (.sequence items f)

/-- What is known of the members of a node that are looked for below line `floor` and up to `last`. -/
def LaysOut (t : LineTable) (skipped floor last : Nat) (node : Node) : Prop :=
  isDivided node = true → node.form.flow = false → ∀ ms, membersOf t skipped node floor last = some ms →
    ∃ number, (skipped < number ∨ floor < number) ∧ Rows t last floor number ms ∧ ∀ m ∈ ms, Laid m

theorem keyLines_sorted (t : LineTable) (column number last : Nat) :
    (t.keyLines column number last).Pairwise (· < ·) := by
  have hrest : ((t.siblingLines column (numbersFrom (number + 1) last)).filter (!t.isItem ·)).Sublist
      (numbersFrom (number + 1) last) := List.filter_sublist.trans (siblingLines_sublist t column _)
  refine List.pairwise_cons.mpr ⟨fun n hn => ?_, (pairwise_numbersFrom _ _).sublist hrest⟩
  have hmem := hrest.subset hn
  rw [numbersFrom_eq, List.mem_range'_1] at hmem
  omega

/-- A line of data at a column goes on there. -/
theorem column_lt_of_mem_siblingLines {n : Nat} {ns : List Nat} (h : n ∈ t.siblingLines column ns) :
    column < (t.line n).length := by
  obtain ⟨-, hdata, hindent⟩ := mem_siblingLines h
  rw [isIdle, Bool.or_eq_false_iff] at hdata
  exact hindent ▸ indent_lt_length hdata.1

theorem column_lt_of_mem_keyLines {n : Nat} (h : n ∈ t.keyLines column number last) (hne : n ≠ number) :
    column < (t.line n).length :=
  column_lt_of_mem_siblingLines (List.mem_filter.mp ((List.mem_cons.mp h).resolve_left hne)).1

variable {skipped : Nat} {ms : List Member}

/-! ## Mappings -/

/-- What stands on a line of a mapping: the entry of a key, or one that only the line tells. -/
def placeOnLine (t : LineTable) (skipped : Nat) (keys : List PlacedKey) (column floor number stop : Nat) :
    Member :=
  match keys.reverse.find? (·.line skipped == number) with
  | some k =>
    let info := t.entry number k.key.form.column stop column floor
    attachNested t { info with name := k.key.displayKey, value := .node k.value } k.value k.members
  | none => .leaf (lineEntry (t.entry number column stop column floor) ((t.line number).drop column))

/-- The members of a mapping are laid out from its topmost key on. -/
theorem exists_of_mappingMembers {keys : List PlacedKey}
    (h : mappingMembers t skipped keys floor last = some ms) :
    ∃ top ∈ keys, (∀ k ∈ keys, top.line skipped ≤ k.line skipped) ∧
      ms = layOut (placeOnLine t skipped keys top.key.form.column) floor
        (withStops (t.regionEnd · last top.key.form.column)
          (t.keyLines top.key.form.column (top.line skipped) last)) := by
  unfold mappingMembers at h
  dsimp only at h
  split at h
  · cases h
  rename_i line lines hlines
  obtain ⟨top, hfound, h⟩ := Option.bind_eq_some_iff.mp h
  have htest := List.find?_some hfound
  have htop : top.line skipped = lines.foldl min line := eq_of_beq htest
  refine ⟨top, List.mem_reverse.mp (List.mem_of_find?_eq_some hfound), fun k hk => ?_, ?_⟩
  · rw [htop]
    refine (List.min?_eq_some_iff.mp List.min?_cons').2 _ ?_
    rw [← hlines]
    exact List.mem_map_of_mem hk
  · rw [htop]
    exact (Option.some.inj h).symm

theorem laysOut_mapping {entries : List (Node × Node)} {f : Form} (hcount : last ≤ (ofText text).count)
    (hkeys : ∀ e ∈ ownEntries entries, lineOf skipped e.1 ≤ last ∧
      e.1.form.column < ((ofText text).line (lineOf skipped e.1)).length)
    (hvalues : ∀ top ∈ ownEntries entries,
      (∀ e ∈ ownEntries entries, lineOf skipped top.1 ≤ lineOf skipped e.1) →
      ∀ p ∈ extents (ofText text) top.1.form.column last
        ((ofText text).keyLines top.1.form.column (lineOf skipped top.1) last),
      ∀ e ∈ ownEntries entries, lineOf skipped e.1 = p.1 → p.2 ≤ (ofText text).count →
        LaysOut (ofText text) skipped p.1 p.2 e.2) :
    LaysOut (ofText text) skipped floor last (.mapping entries f) := by
  intro _ _ ms h
  rw [membersOf] at h
  split at h
  · cases h
  have hown {k : PlacedKey} : k ∈ placeKeys (ofText text) skipped entries ↔
      ∃ e ∈ ownEntries entries, k = ⟨e.1, e.2, membersOf (ofText text) skipped e.2⟩ := mem_placeKeys
  generalize placeKeys (ofText text) skipped entries = keys at h hown
  obtain ⟨k, hk, hleast, rfl⟩ := exists_of_mappingMembers h
  obtain ⟨top, htop, rfl⟩ := hown.mp hk
  have hpos : 1 ≤ lineOf skipped top.1 := Nat.succ_pos _
  have hlast : lineOf skipped top.1 ≤ last := (hkeys top htop).1
  refine ⟨lineOf skipped top.1, .inl (by rw [lineOf]; omega), laid_layOut
    (keyLines_sorted _ top.1.form.column _ _) (fun n hn => (mem_keyLines hn hlast).2)
    fun f p hp hmem hle hto => ?_⟩
  have hfrom : lineOf skipped top.1 ≤ p.1 := (mem_keyLines hmem hlast).1
  unfold placeOnLine
  split
  · rename_i k' hfound
    have htest := List.find?_some hfound
    obtain ⟨e, he, rfl⟩ := hown.mp (List.mem_reverse.mp (List.mem_of_find?_eq_some hfound))
    have hline : lineOf skipped e.1 = p.1 := eq_of_beq htest
    have hcolumn := (hkeys e he).2
    rw [hline] at hcolumn
    refine row_attachNested (Nat.le_trans hpos hfrom) hle (Nat.le_trans hto hcount) hcolumn rfl rfl rfl
      fun hstop hdivided hflow ms hms => ?_
    obtain ⟨n, -, hlaid⟩ := hvalues top htop (fun e he => hleast _ (hown.mpr ⟨e, he, rfl⟩)) _
      (mem_extents hp) e he hline hstop hdivided hflow ms hms
    exact ⟨n, hlaid⟩
  · rename_i hnone
    have hne : p.1 ≠ lineOf skipped top.1 := by
      intro heq
      exact List.find?_eq_none.mp hnone _ (List.mem_reverse.mpr hk) (beq_iff_eq.mpr heq.symm)
    exact ⟨row_entry (Nat.le_trans hpos hfrom) hle (Nat.le_trans hto hcount)
      (column_lt_of_mem_keyLines hmem hne) rfl rfl, .leaf _⟩

/-! ## Sequences -/

/-- The members of a sequence are laid out from the dash of its first item on, if there are as many dashes
as items. -/
theorem exists_of_sequenceMembers {items : List PlacedItem}
    (h : sequenceMembers t skipped items floor last = some ms) :
    ∃ first dash lines, items.head? = some first ∧
      dashLine? t floor (skipped + first.item.form.line + 1) = some dash ∧
      lines = t.itemLines (t.indent dash) dash last ∧ lines.length = items.length ∧
      ms = layOut (Block.placeItem t (t.indent dash) lines items) floor
        (withStops (t.regionEnd · last (t.indent dash)) lines) := by
  unfold sequenceMembers at h
  obtain ⟨first, hfirst, h⟩ := Option.bind_eq_some_iff.mp h
  obtain ⟨dash, hdash, h⟩ := Option.bind_eq_some_iff.mp h
  dsimp only at h
  split at h
  · cases h
  · rename_i hlength
    refine ⟨first, dash, _, hfirst, hdash, rfl, ?_, (Option.some.inj h).symm⟩
    exact Decidable.not_not.mp (mt bne_iff_ne.mpr hlength)

theorem itemLines_sorted (t : LineTable) (column number last : Nat) :
    (t.itemLines column number last).Pairwise (· < ·) :=
  (pairwise_numbersFrom _ _).sublist ((List.takeWhile_sublist _).trans (siblingLines_sublist t column _))

theorem mem_itemLines {n : Nat} (h : n ∈ t.itemLines column number last) :
    number ≤ n ∧ n ≤ last ∧ column < (t.line n).length := by
  have hsibling := (List.takeWhile_sublist _).subset h
  have hmem := (mem_siblingLines hsibling).1
  rw [numbersFrom_eq, List.mem_range'_1] at hmem
  exact ⟨hmem.1, by omega, column_lt_of_mem_siblingLines hsibling⟩

theorem laysOut_sequence {items : List Node} {f : Form} (hcount : last ≤ (ofText text).count)
    (hitems : ∀ first, items.head? = some first →
      ∀ dash, dashLine? (ofText text) floor (lineOf skipped first) = some dash →
      ((ofText text).itemLines ((ofText text).indent dash) dash last).length = items.length →
      ∀ p ∈ (extents (ofText text) ((ofText text).indent dash) last
          ((ofText text).itemLines ((ofText text).indent dash) dash last)).zip items,
        p.1.2 ≤ (ofText text).count → LaysOut (ofText text) skipped p.1.1 p.1.2 p.2) :
    LaysOut (ofText text) skipped floor last (.sequence items f) := by
  intro _ _ ms h
  rw [membersOf] at h
  split at h
  · cases h
  rw [Block.placeItems_eq] at h
  obtain ⟨first, dash, lines, hfirst, hdash, hlines, hlength, rfl⟩ := exists_of_sequenceMembers h
  rw [List.head?_map, Option.map_eq_some_iff] at hfirst
  obtain ⟨item, hitem, rfl⟩ := hfirst
  rw [List.length_map] at hlength
  have hvalues := hitems item hitem dash hdash
  rw [← hlines] at hvalues
  have hvalues := hvalues hlength
  have hsorted := hlines ▸ itemLines_sorted (ofText text) ((ofText text).indent dash) dash last
  have hmem (n : Nat) (hn : n ∈ lines) := mem_itemLines (hlines ▸ hn)
  obtain ⟨number, more, rfl⟩ : ∃ number more, lines = number :: more :=
    List.exists_cons_of_length_pos (hlength ▸ List.length_pos_of_mem (List.mem_of_head? hitem))
  have hdash := floor_lt_dashLine hdash
  have hfrom := (hmem number List.mem_cons_self).1
  refine ⟨number, .inr (by omega), laid_layOut hsorted (fun n hn => (hmem n hn).2.1)
    fun g p hp hin hle hto => ?_⟩
  obtain ⟨hfrom, -, hcolumn⟩ := hmem p.1 hin
  unfold Block.placeItem
  dsimp only
  split
  · rename_i placed hplaced
    rw [List.getElem?_map, Option.map_eq_some_iff] at hplaced
    obtain ⟨item, hitem, rfl⟩ := hplaced
    refine row_attachNested (by omega) hle (Nat.le_trans hto hcount) hcolumn rfl rfl rfl
      fun hstop hdivided hflow ms hms => ?_
    obtain ⟨n, -, hlaid⟩ := hvalues _ (mem_zip_extents hsorted hp hitem) hstop hdivided hflow ms hms
    exact ⟨n, hlaid⟩
  · exact ⟨row_entry (by omega) hle (Nat.le_trans hto hcount) hcolumn rfl rfl, .leaf _⟩

/-- The members that are found of a node that a loader reports are laid out one below the other, at every
depth. -/
theorem Reported.laysOut {node : Node} (h : Reported (ofText text) skipped floor last node)
    (hcount : last ≤ (ofText text).count) : LaysOut (ofText text) skipped floor last node := by
  induction h with
  | undivided h =>
    intro hdivided hflow
    rw [hdivided, hflow] at h
    cases h
  | mapping hkeys _ ih =>
    exact laysOut_mapping hcount hkeys fun top htop hleast p hp e he hline hstop =>
      ih top htop hleast p hp e he hline hstop
  | sequence _ ih =>
    exact laysOut_sequence hcount fun first hfirst dash hdash hlength p hp hstop =>
      ih first hfirst dash hdash hlength p hp hstop

/-! ## Entities -/

theorem Row.detached {m : Member} (h : Row t floor number stop m) :
    Row t floor number stop (m.mapInfo (Block.detach
      (t.span ((m.info.span.map (·.start)).getD 0) m.unitStop))) := by
  obtain ⟨column, _, _, hcolumn, -, hspan, hunit⟩ := h.spans
  refine ⟨h.pos, h.le, h.le_count, h.inked, column, number, column, hcolumn, .inl ⟨rfl, rfl⟩, ?_, ?_⟩
  · cases m <;> exact hspan
  · rw [Member.unitStop, hspan, hunit]
    cases m <;> rfl

theorem Laid.detached {m : Member} (h : Laid m) (unit : Span) :
    Laid (m.mapInfo (Block.detach unit)) := by
  cases h with
  | leaf info => exact .leaf _
  | group hspan hstacked hinside hlaid => exact .group hspan hstacked hinside hlaid

theorem Rows.first {m : Member} (h : Rows t last floor number (m :: ms)) :
    ∃ stop, Row t floor number stop m := by
  cases h with
  | single h hle => exact ⟨_, h⟩
  | cons h hlt hrest => exact ⟨_, h⟩

/-- The comments above the first of some rows do not matter to the others. -/
theorem Rows.detached {head : Member} {rest : List Member}
    (h : Rows t last floor number (head :: rest)) :
    Rows t last floor number (head.mapInfo (Block.detach
      (t.span ((head.info.span.map (·.start)).getD 0) head.unitStop)) :: rest) := by
  cases h with
  | single h hle => exact .single h.detached hle
  | cons h hlt hrest => exact .cons h.detached hlt hrest

/-- An entity with the members that were found, or with all but the comments above the first of them. -/
theorem rows_blockEntity (fileType : FileType) (root : Node) (name : String) (first : Nat) {head : Member}
    {rest : List Member} (h : Rows t last floor number (head :: rest)) (hlaid : ∀ m ∈ head :: rest, Laid m) :
    ∃ head', Rows t last floor number (head' :: rest) ∧ (∀ m ∈ head' :: rest, Laid m) ∧
      Block.IsBlock t root head' rest (blockEntity fileType t root name first last head rest) := by
  cases hopens : Block.opensRange t first last head.info.comments with
  | false => exact ⟨head, h, hlaid, Block.blockEntity_kept fileType root name rest hopens⟩
  | true =>
    refine ⟨_, h.detached, ?_, Block.blockEntity_opened fileType root name rest hopens⟩
    rw [List.forall_mem_cons] at hlaid ⊢
    exact ⟨hlaid.1.detached _, hlaid.2⟩

/-- An entity on the lines of its document section. -/
def InLines (t : LineTable) (first last : Nat) (e : Entity) : Prop :=
  ∃ span, e.span = some span ∧ span.start < span.stop ∧
    t.offset first 0 ≤ span.start ∧ span.stop ≤ t.lineEnd last ∧
    e.startLine = span.startLine ∧ e.endLine = span.endLine ∧
    first ≤ span.startLine ∧ span.startLine ≤ span.endLine ∧ span.endLine ≤ last

/-- The entity of rows goes from where the first starts to where the last ends. -/
theorem Rows.inLines {root : Node} {e : Entity} {first : Nat} {head : Member} {rest : List Member}
    (h : Rows (ofText text) last floor number (head :: rest)) (hfloor : floor < number)
    (hfirst : first = floor + 1) (hcount : last ≤ (ofText text).count)
    (he : Block.IsBlock (ofText text) root head rest e) : InLines (ofText text) first last e := by
  obtain ⟨final, hfinal⟩ : ∃ final, (head :: rest).getLast? = some final :=
    ⟨_, List.getLast?_eq_some_getLast (List.cons_ne_nil head rest)⟩
  obtain ⟨f, n, s, hrow, hn, hs, -⟩ := h.of_mem (List.mem_of_getLast? hfinal)
  obtain ⟨_, _, _, -, -, -, -, -, hstop⟩ := hrow.placed
  have hstop : final.unitStop = (ofText text).lineEnd s := by
    rw [Member.unitStop, hstop]
    rfl
  obtain ⟨_, hstarts⟩ := h.first
  obtain ⟨column, top, side, hplace, hcolumn, htop, hwhere, -, hunit⟩ := hstarts.placed
  have hstart : head.unitStart = (ofText text).offset top side := by
    rw [Member.unitStart, hunit]
    rfl
  have hpos := hrow.pos
  have hle := hrow.le
  have hlt : (ofText text).offset top side < (ofText text).lineEnd s := calc
    (ofText text).offset top side ≤ (ofText text).offset number column := offset_top_le htop hplace hwhere
    _ < (ofText text).lineEnd number := Nat.add_lt_add_left hcolumn _
    _ ≤ (ofText text).lineEnd s := lineEnd_mono hplace.pos (Nat.le_trans hn hle) hrow.le_count
  have hstartLine : ((ofText text).span ((ofText text).offset top side) ((ofText text).lineEnd s)).startLine =
      top := htop.lineAt_offset
  have hendLine := endLine_span (Nat.le_trans hpos hle) hrow.le_count hrow.inked hlt
  have hspan := he.span_eq
  have hlast := he.endLine_eq
  rw [hfinal, Option.getD_some, hstop] at hspan hlast
  rw [hstart] at hspan
  refine ⟨_, hspan, hlt, ?_, lineEnd_mono (Nat.le_trans hpos hle) hs hcount, ?_, ?_, ?_⟩
  · refine htop.lineStart_le (by omega) ?_
    rcases hwhere with ⟨rfl, -⟩ | hwhere <;> omega
  · rw [he.startLine_eq, hstart]
    rfl
  · rw [hlast, hendLine, lineAt_lineEnd_pred (Nat.le_trans hpos hle) hrow.le_count hrow.inked]
  · rw [hstartLine, hendLine]
    rcases hwhere with ⟨rfl, -⟩ | hwhere <;> omega

/-- Every list of members of an entity is a stack, if its own are laid out. -/
theorem laid_of_lists {e : Entity} (hstacked : Stacked e.members) (hlaid : ∀ m ∈ e.members, Laid m)
    {outer : Option Span} (h : e.Lists outer ms) : Stacked ms ∧ ∀ m ∈ ms, Laid m := by
  induction h with
  | top => exact ⟨hstacked, hlaid⟩
  | nested _ hi ih =>
    cases ih.2 _ hi with
    | group hspan hstacked hinside hlaid => exact ⟨hstacked, hlaid⟩

/-! ## Document sections -/

theorem pairwise_rangesFrom {ls : List (List Char)} {first : Nat} (hle : first ≤ number) :
    (rangesFrom ls first number).Pairwise fun r r' => r.2 < r'.1 := by
  induction ls generalizing first number with
  | nil =>
    rw [rangesFrom]
    split
    · exact List.pairwise_singleton _ _
    · exact List.Pairwise.nil
  | cons line rest ih =>
    rw [rangesFrom]
    split
    · have hmore := ih (Nat.le_refl (number + 1))
      dsimp only
      split
      · refine List.pairwise_cons.mpr ⟨fun r hr => ?_, hmore⟩
        have := (mem_rangesFrom (Nat.le_refl (number + 1)) hr).1
        omega
      · exact hmore
    · exact ih (Nat.le_succ_of_le hle)

/-- An entity that is built of a node, read from a document section, that is written as a block. -/
def IsBlockOf (fileType : FileType) (t : LineTable) (first last : Nat) (root : Node) (e : Entity) : Prop :=
  isDivided root = true ∧ root.form.flow = false ∧ ∃ name head rest,
    membersOf t (first - 1) root (first - 1) last = some (head :: rest) ∧
      e = blockEntity fileType t root name first last head rest

/-- An entity that may be built of the lines from `first` to `last`, whatever node a loader reports
there. -/
def IsReportedBlock (fileType : FileType) (t : LineTable) (first last : Nat) (e : Entity) : Prop :=
  ∃ root, Reported t (first - 1) (first - 1) last root ∧ IsBlockOf fileType t first last root e

variable {fileType : FileType} {first : Nat} {e : Entity}

/-- What holds of the members of a block. -/
theorem IsReportedBlock.laid (h : IsReportedBlock fileType (ofText text) first last e) (hpos : 1 ≤ first)
    (hcount : last ≤ (ofText text).count) :
    InLines (ofText text) first last e ∧ Stacked e.members ∧ ∀ m ∈ e.members, Laid m := by
  obtain ⟨root, hreported, hdivided, hflow, name, head, rest, hmembers, rfl⟩ := h
  obtain ⟨number, hnumber, hrows, hlaid⟩ := hreported.laysOut hcount hdivided hflow _ hmembers
  have hfloor : first - 1 < number := hnumber.elim id id
  obtain ⟨head', hrows, hlaid, hblock⟩ := rows_blockEntity fileType root name first hrows hlaid
  refine ⟨hrows.inLines hfloor (Nat.sub_add_cancel hpos).symm hcount hblock, ?_⟩
  rw [hblock.members_eq]
  exact ⟨hrows.stacked, hlaid⟩

/-- A block of a run of documents is built of the root of one. -/
theorem readDocuments_blocks {nameOf : Nat → String} {index : Nat} {ranges : List (Nat × Nat)}
    (he : e ∈ (readDocuments fileType t nameOf index ranges).entities) (hblock : e.inline = false) :
    ∃ r ∈ ranges, ∃ root, read (rangeText t r.1 r.2) true = .ok (some root) ∧
      IsBlockOf fileType t r.1 r.2 root e := by
  obtain ⟨range, hrange, name, r, hr, he⟩ := mem_readDocuments he
  obtain ⟨root, hnode, hdivided, ⟨-, rfl⟩ | ⟨hflow, hmade⟩⟩ := mem_readDocument hr he
  · cases hblock
  · exact ⟨range, hrange, root, hnode, hdivided, hflow, name, hmade⟩

/-- The block entities of a stream are built of the nodes that are read from its document sections.
Whatever nodes a loader reports, such an entity lies on the lines of its section, and so above those of
the sections that follow. In every list of its members the units are one below the other, each around
the span of its member and below the last line of the members before. The units of children are in the
span of their parent and start later. -/
theorem blockEntity_lays_out (fileType : FileType) (text : Text) :
    (∀ e ∈ (readStream fileType text).entities, e.inline = false →
      ∃ r ∈ documentRanges (ofText text), ∃ root,
        read (rangeText (ofText text) r.1 r.2) true = .ok (some root) ∧
          IsBlockOf fileType (ofText text) r.1 r.2 root e) ∧
    (∀ r ∈ documentRanges (ofText text), ∀ e, IsReportedBlock fileType (ofText text) r.1 r.2 e →
      InLines (ofText text) r.1 r.2 e ∧
      ∀ outer ms, e.Lists outer ms → Stacked ms ∧
        ∀ info children, .group info children ∈ ms →
          ∃ span, info.span = some span ∧ ∀ m ∈ children, StartsInside span m) ∧
    (documentRanges (ofText text)).Pairwise fun r r' => ∀ e e',
      IsReportedBlock fileType (ofText text) r.1 r.2 e →
      IsReportedBlock fileType (ofText text) r'.1 r'.2 e' →
        e.endLine < e'.startLine ∧
        ∃ span span', e.span = some span ∧ e'.span = some span' ∧ span.stop < span'.start := by
  have hranges : (documentRanges (ofText text)).Pairwise fun r r' => r.2 < r'.1 :=
    (pairwise_rangesFrom (Nat.le_refl 1)).sublist List.filter_sublist
  refine ⟨fun e he hblock => readDocuments_blocks he hblock, fun r hr e he => ?_,
    hranges.imp_of_mem fun {r r'} hr hr' hlt e e' he he' => ?_⟩
  · obtain ⟨hfirst, -, hcount⟩ := mem_documentRanges hr
    obtain ⟨hlines, hstacked, hlaid⟩ := he.laid hfirst hcount
    refine ⟨hlines, fun outer ms hms => ?_⟩
    obtain ⟨hstacked, hlaid⟩ := laid_of_lists hstacked hlaid hms
    refine ⟨hstacked, fun info children hi => ?_⟩
    cases hlaid _ hi with
    | group hspan _ hinside _ => exact ⟨_, hspan, hinside⟩
  · obtain ⟨hfirst, hle, hcount⟩ := mem_documentRanges hr
    obtain ⟨hfirst', hle', hcount'⟩ := mem_documentRanges hr'
    obtain ⟨span, hspan, -, -, hstop, -, hend, -, -, hlast⟩ := (he.laid hfirst hcount).1
    obtain ⟨span', hspan', -, hstart, -, hbegin, -, hfirst, -⟩ := (he'.laid hfirst' hcount').1
    refine ⟨by omega, span, span', hspan, hspan', ?_⟩
    calc span.stop ≤ (ofText text).lineEnd r.2 := hstop
      _ < (ofText text).offset r'.1 0 := (isPlace_lineEnd (by omega) hcount).offset_lt
          ⟨hfirst', by omega, Nat.zero_le _⟩ hlt
      _ ≤ span'.start := hstart

/-! ### A mapping in two places -/

/-- The keys of a mapping of scalars are reported if they are at places. -/
theorem Reported.of_scalars {entries : List (Node × Node)} {f : Form}
    (hkeys : ∀ e ∈ ownEntries entries, lineOf skipped e.1 ≤ last ∧
      e.1.form.column < (t.line (lineOf skipped e.1)).length)
    (hscalars : ∀ e ∈ ownEntries entries, isDivided e.2 = false) :
    Reported t skipped floor last (.mapping entries f) := by
  refine .mapping hkeys fun _ _ _ _ _ e he _ => .undivided ?_
  rw [hscalars e he, Bool.false_and]

/-- A text of two documents. In the first a mapping has its keys in one entry, and is the value of another
as an alias. -/
def aliasedText : Text := Text.ofString "b: &x\n  d: 1\n  c: 2\na: *x\n---\ne: 3\n"

/-- A key on a line and at a column, counted from zero. -/
def keyAt (name : String) (line column : Nat) : Node := .scalar (.text name) { line, column }

/-- The entries of the mapping that is there twice. -/
def sharedEntries : List (Node × Node) :=
  [(keyAt "d" 1 2, .scalar (.int 1) {}), (keyAt "c" 2 2, .scalar (.int 2) {})]

/-- The entries of the first document. -/
def aliasedEntries : List (Node × Node) :=
  [(keyAt "b" 0 0, .mapping sharedEntries {}), (keyAt "a" 3 0, .mapping sharedEntries {})]

theorem reported_aliased : Reported (ofText aliasedText) 0 0 4 (.mapping aliasedEntries {}) := by
  refine .mapping (by decide) fun top htop _ p hp e he _ => ?_
  have hshared : e.2 = .mapping sharedEntries {} := by
    rcases List.mem_cons.mp he with rfl | he
    · rfl
    · obtain rfl := List.mem_singleton.mp he
      rfl
  have hextents : ∀ top ∈ ownEntries aliasedEntries, ∀ p ∈ extents (ofText aliasedText) top.1.form.column 4
      ((ofText aliasedText).keyLines top.1.form.column (lineOf 0 top.1) 4), 3 ≤ p.2 := by decide
  have hplaces : ∀ e ∈ ownEntries sharedEntries, lineOf 0 e.1 ≤ 3 ∧
      e.1.form.column < ((ofText aliasedText).line (lineOf 0 e.1)).length := by decide
  rw [hshared]
  exact .of_scalars (fun e he => ⟨Nat.le_trans (hplaces e he).1 (hextents top htop p hp), (hplaces e he).2⟩)
    (by decide)

/-- The entry of the alias has no children, as these are above it. -/
theorem blockEntity_lays_out_aliased :
    ∃ e e', IsReportedBlock .yaml (ofText aliasedText) 1 4 e ∧
      IsReportedBlock .yaml (ofText aliasedText) 6 7 e' ∧
      e.members.map (·.children.length) = [2, 0] ∧ InLines (ofText aliasedText) 1 4 e ∧
      (∀ outer ms, e.Lists outer ms → Stacked ms) ∧ e.endLine < e'.startLine := by
  have hlays := blockEntity_lays_out .yaml aliasedText
  have hranges : documentRanges (ofText aliasedText) = [(1, 4), (6, 7)] := by decide
  have he : IsReportedBlock .yaml (ofText aliasedText) 1 4 _ :=
    ⟨_, reported_aliased, rfl, rfl, "document-0", _, _, rfl, rfl⟩
  have he' : IsReportedBlock .yaml (ofText aliasedText) 6 7 _ :=
    ⟨.mapping [(keyAt "e" 0 0, .scalar (.int 3) {})] {}, .of_scalars (by decide) (by decide),
      rfl, rfl, "document-1", _, _, rfl, rfl⟩
  rw [hranges] at hlays
  obtain ⟨hlines, hlists⟩ := hlays.2.1 (1, 4) List.mem_cons_self _ he
  refine ⟨_, _, he, he', by decide, hlines, fun outer ms hms => (hlists outer ms hms).1, ?_⟩
  exact ((List.pairwise_cons.mp hlays.2.2).1 (6, 7) List.mem_cons_self _ _ he he').1

end MemberOrder.Yaml
