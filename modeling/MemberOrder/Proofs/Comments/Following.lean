/-
  The comments that follow a member on its line, told from the source alone.

  A comment follows a member if no line feed stands between the two, and nothing else but white space,
  other comments and the separator of the member (`Comment.Follows`). A comment that follows a member
  trails it in the masked text, past the separator (`Comment.Follows.trails`): no literal can stand in
  between, since it would end with its quote there.
-/
import MemberOrder.Proofs.Placement.Basic
import MemberOrder.Proofs.Placement.Style
import MemberOrder.Proofs.Source.Lines
import MemberOrder.Proofs.Source.Literals
import MemberOrder.Proofs.Style.Decoration

namespace MemberOrder

open Attachment

/-! ## Code between two places -/

/-- The character of code at an offset: neither white space nor in a comment. -/
def codeAt? (t : Text) (comments : List Comment) (x : Nat) : Option Char :=
  t[x]?.filter fun c => !Text.isSpace c && !comments.any fun k => k.offset ≤ x && x < k.stop

/-- The code between two offsets. -/
def codeBetween (t : Text) (comments : List Comment) (a b : Nat) : List Char :=
  (List.range' a (b - a)).filterMap (codeAt? t comments)

variable {t : Text} {comments : List Comment} {a b x : Nat}

theorem codeAt?_eq_some {c : Char} : codeAt? t comments x = some c ↔
    t[x]? = some c ∧ Text.isSpace c = false ∧ ¬Scanned.InComment comments x := by
  simp [codeAt?, Option.filter_eq_some_iff, Scanned.InComment]

/-- Where there is no code there is white space or a comment. -/
theorem space_of_codeAt? (h : codeAt? t comments x = none) {c : Char} (hc : t[x]? = some c) :
    Scanned.InComment comments x ∨ Text.isSpace c = true := by
  by_cases hin : Scanned.InComment comments x
  · exact Or.inl hin
  · refine Or.inr ((Bool.not_eq_false _).mp fun hspace => ?_)
    rw [codeAt?_eq_some.mpr ⟨hc, hspace, hin⟩] at h
    cases h

theorem codeAt?_of_codeBetween (h : codeBetween t comments a b = []) (ha : a ≤ x) (hb : x < b) :
    codeAt? t comments x = none :=
  List.filterMap_eq_nil_iff.mp h x (List.mem_range'_1.mpr (by omega))

/-- Code of one character stands at one place. -/
theorem exists_of_codeBetween {c : Char} (h : codeBetween t comments a b = [c]) :
    ∃ x, a ≤ x ∧ x < b ∧ codeAt? t comments x = some c ∧
      ∀ y, a ≤ y → y < b → y ≠ x → codeAt? t comments y = none := by
  obtain ⟨before, x, after, hrange, hbefore, hx, hafter⟩ := List.filterMap_eq_cons_iff.mp h
  have hmem : ∀ y, y ∈ before ++ x :: after ↔ a ≤ y ∧ y < b := fun y => by
    rw [← hrange, List.mem_range'_1]
    omega
  obtain ⟨h1, h2⟩ := (hmem x).mp (by simp)
  refine ⟨x, h1, h2, hx, fun y h3 h4 hne => ?_⟩
  rcases List.mem_append.mp ((hmem y).mpr ⟨h3, h4⟩) with hy | hy
  · exact hbefore y hy
  · exact List.filterMap_eq_nil_iff.mp hafter y ((List.mem_cons.mp hy).resolve_left hne)

/-! ## Comments after a member -/

/-- A comment follows a member: it starts on the line that the member ends on, and between the two
stands no code but the separator of the member. -/
def Comment.Follows (t : Text) (comments : List Comment) (i : MemberInfo) (c : Comment) : Prop :=
  ∃ span, i.span = some span ∧ span.stop ≤ c.offset ∧ '\n' ∉ t.slice span.stop c.offset ∧
    codeBetween t comments span.stop c.offset = i.separator.toList

instance (t : Text) (comments : List Comment) (i : MemberInfo) (c : Comment) :
    Decidable (c.Follows t comments i) :=
  inferInstanceAs (Decidable (∃ span ∈ i.span, span.stop ≤ c.offset ∧
    '\n' ∉ t.slice span.stop c.offset ∧
    codeBetween t comments span.stop c.offset = i.separator.toList))

variable {p : Profile}

/-- The line of a comment is that of an offset before it, if no line feed stands in between. -/
theorem line_eq_lineAt {c : Comment} (hc : c ∈ (Scanned.scan p t).comments) (ha : a ≤ c.offset)
    (h : ∀ x, a ≤ x → x < c.offset → t[x]? ≠ some '\n') : c.line = (Scanned.scan p t).lineAt a := by
  rw [Scanned.line_of_comment hc]
  exact (Lines.lineAt_eq_lineAt ha h).symm

/-- No line feed is code. -/
theorem not_break_of_code {s : Scanned} (hs : s = Scanned.scan p t)
    (h : s.masked.testAt x Text.isSpace = false) : t[x]? ≠ some '\n' := by
  intro heq
  rw [hs, Text.testAt_of_getElem? (Scanned.masked_break heq (Or.inr rfl))] at h
  cases h

/-- A comment that follows a member trails it, past its separator. -/
theorem Comment.Follows.trails {i : MemberInfo} {span : Span} {place : Option Nat} {c : Comment}
    (hquotes : ∀ q ∈ p.quotes, Text.isSpace q = false ∧ q ≠ ',' ∧ q ≠ ';')
    (hf : c.Follows t (Scanned.scan p t).comments i) (hspan : i.span = some span)
    (hcode : (Scanned.scan p t).masked.testAt (span.stop - 1) Text.isSpace = false)
    (hsep : SeparatorNext (Scanned.scan p t) i.separator span.stop place)
    (hc : c ∈ (Scanned.scan p t).comments) :
    Trails (Scanned.scan p t) [] (pastSeparator span.stop place) c := by
  let s := Scanned.scan p t
  obtain ⟨span', hspan', hle, hline, hbetween⟩ := hf
  obtain rfl : span = span' := Option.some.inj (hspan.symm.trans hspan')
  have hbreak : ∀ x, span.stop ≤ x → x < c.offset → t[x]? ≠ some '\n' :=
    fun x h1 h2 hx => hline (Text.mem_slice.mpr ⟨x, h1, h2, hx⟩)
  have hspaces : ∀ x, Scanned.InComment s.comments x → s.masked.testAt x Text.isSpace = true :=
    fun x ⟨k, hk, h1, h2⟩ => Scanned.masked_in_comment hk h1 h2
  -- outside of comments there is white space or the separator, and so it is in the masked text
  have hvisible : ∀ x, span.stop ≤ x → x < c.offset →
      Scanned.InComment s.comments x ∨ s.masked[x]? = t[x]? := by
    refine fun x h1 h2 => Scanned.masked_before_comment hc hbreak (fun y d h3 h4 hd => ?_) h1 h2
    refine Classical.or_iff_not_imp_left.mpr fun hin => ?_
    rw [← Bool.not_eq_true, List.contains_iff_mem]
    intro hq
    obtain ⟨hspace, hcomma, hsemi⟩ := hquotes d hq
    have hmem : d ∈ codeBetween t s.comments span.stop c.offset :=
      List.mem_filterMap.mpr ⟨y, List.mem_range'_1.mpr (by omega), codeAt?_eq_some.mpr ⟨hd, hspace, hin⟩⟩
    rw [hbetween] at hmem
    cases place with
    | none =>
      rw [show i.separator = "" from hsep] at hmem
      cases hmem
    | some place =>
      obtain ⟨-, -, e, he, heq, -⟩ := hsep
      rw [heq, String.toList_singleton, List.mem_singleton] at hmem
      rcases he with rfl | rfl <;> contradiction
  have hblank : ∀ x, span.stop ≤ x → x < c.offset → codeAt? t s.comments x = none →
      s.masked.testAt x Text.isSpace = true := by
    intro x h1 h2 hx
    have hsize : x < t.size := by
      have := Scanned.comment_bounds hc
      omega
    rcases hvisible x h1 h2 with hin | heq
    · exact hspaces x hin
    · have hget : t[x]? = some t[x] := Array.getElem?_eq_getElem hsize
      rcases space_of_codeAt? hx hget with hin | hspace
      · exact hspaces x hin
      · rw [Text.testAt_of_getElem? (heq.trans hget), hspace]
  cases place with
  | none =>
    rw [show i.separator = "" from hsep] at hbetween
    show Trails s [] span.stop c
    refine ⟨hle, line_eq_lineAt hc (by omega) fun x h1 h2 => ?_, fun x h1 h2 => passes_of_space ?_⟩
    · by_cases hx : span.stop ≤ x
      · exact hbreak x hx h2
      · rw [show x = span.stop - 1 by omega]
        exact not_break_of_code rfl hcode
    · exact hblank x h1 h2 (codeAt?_of_codeBetween hbetween h1 h2)
  | some place =>
    obtain ⟨hplace, hgap, e, he, heq, hchar⟩ := hsep
    rw [heq, String.toList_singleton] at hbetween
    obtain ⟨x, h1, h2, hx, hothers⟩ := exists_of_codeBetween hbetween
    obtain ⟨hget, hspace, hin⟩ := codeAt?_eq_some.mp hx
    -- the separator is the first code after the member
    obtain rfl : x = place := by
      rcases Nat.lt_trichotomy x place with hlt | heq | hlt
      · have := hgap x h1 hlt
        rw [Text.testAt_of_getElem? (((hvisible x h1 h2).resolve_left hin).trans hget), hspace] at this
        cases this
      · exact heq
      · have := hblank place hplace (by omega) (hothers place hplace (by omega) (by omega))
        rw [Text.testAt_of_getElem? hchar, hspace] at this
        cases this
    show Trails s [] (x + 1) c
    refine ⟨h2, line_eq_lineAt hc (by omega) fun y h3 h4 => hbreak y (by omega) h4,
      fun y h3 h4 => passes_of_space ?_⟩
    exact hblank y (by omega) h4 (hothers y (by omega) h4 (by omega))

/-- A member that holds its trail has each comment that follows it. -/
theorem HoldsTrail.mem_of_follows {i : MemberInfo} {span unit : Span} {place : Option Nat} {c : Comment}
    (hquotes : ∀ q ∈ p.quotes, Text.isSpace q = false ∧ q ≠ ',' ∧ q ≠ ';')
    (h : HoldsTrail (Scanned.scan p t) i span unit place) (hc : c ∈ (Scanned.scan p t).comments)
    (hf : c.Follows t (Scanned.scan p t).comments i) : c ∈ i.trailingComments :=
  h.held c hc (hf.trails hquotes h.span_eq h.code h.separator hc)

end MemberOrder

/-!
## The comments that follow a declaration of the indented dialect

Where a comment follows a declaration in the source, the decorated text has nothing else in between
but what was inserted (`inserted_or_space`). The first of this is the semicolon or the bracket that
ends the declaration, and only closing brackets are inserted after it (`passes_past_code`), so the
comment comes after the declaration in the decorated text (`Sheet.Trail.comesAfter_decorated`).
-/

namespace MemberOrder.Style

open Attachment Indented

variable {t : Text} {c : Comment}

/-! ## The decorated text -/

/-- The decorated text of a source. -/
abbrev decorated (t : Text) : Text := (braced (decorate t.toList)).toArray

/-- The decorated text as it is scanned. -/
abbrev decoratedScan (t : Text) : Scanned := Scanned.scan .scss (decorated t)

/-- Leads an offset of the decorated text back to the source. -/
abbrev backTo (t : Text) : Nat → Nat := Indented.toSource (decorate t.toList)

/-- Each character of the decorated text was inserted or is one of the source. -/
theorem exists_flagged {x : Nat} {d : Char} (h : (decorated t)[x]? = some d) :
    ∃ inserted, (flagged (decorate t.toList))[x]? = some (d, inserted) := by
  rw [decorated, List.getElem?_toArray, ← map_fst_flagged, List.getElem?_map] at h
  obtain ⟨⟨d', inserted⟩, hx, rfl⟩ := Option.map_eq_some_iff.mp h
  exact ⟨inserted, hx⟩

theorem getElem?_decorated {x : Nat} {d : Char} {inserted : Bool}
    (h : (flagged (decorate t.toList))[x]? = some (d, inserted)) : (decorated t)[x]? = some d := by
  rw [decorated, List.getElem?_toArray, ← map_fst_flagged, List.getElem?_map, h]
  rfl

theorem mark_of_flagged {x : Nat} {d : Char} (h : (flagged (decorate t.toList))[x]? = some (d, true)) :
    d = ' ' ∨ d = '{' ∨ d = '}' ∨ d = ';' := by
  obtain ⟨l, hl, hd⟩ := mem_inserted_of_flagged (List.mem_of_getElem? h)
  exact (decorate_apart hl).2 d hd

/-- A comment of the decorated text leads further back than what comes after its start. -/
theorem backTo_offset_lt (hc : c ∈ (decoratedScan t).comments) {b : Nat} (hb : c.offset < b) :
    backTo t c.offset < backTo t b := by
  obtain ⟨inserted, hflag⟩ := exists_flagged (Scanned.slash_of_comment hc)
  cases inserted with
  | false => exact toSource_lt_of_kept hflag hb
  | true => exact absurd (mark_of_flagged hflag) (by decide)

/-! ## Between a declaration and a comment -/

section Between

variable {stop x : Nat} (hc : c ∈ (decoratedScan t).comments)
  (hline : '\n' ∉ t.slice (backTo t stop) (backTo t c.offset))
  (hbetween : codeBetween t ((decoratedScan t).comments.map (relocate (backTo t))) (backTo t stop)
    (backTo t c.offset) = [])

include hline hbetween in
/-- What the source has there is white space or in a comment. -/
theorem space_of_kept (h1 : stop ≤ x) (h2 : x < c.offset) {d : Char}
    (hx : (flagged (decorate t.toList))[x]? = some (d, false)) :
    d ≠ '\n' ∧ (Scanned.InComment (decoratedScan t).comments x ∨ Text.isSpace d = true) := by
  have hge : backTo t stop ≤ backTo t x := toSource_mono t.toList h1
  have hlt : backTo t x < backTo t c.offset := toSource_lt_of_kept hx h2
  have hsource : t[backTo t x]? = some d := by
    rw [← Array.getElem?_toList]
    exact getElem?_toSource hx
  constructor
  · rintro rfl
    exact hline (Text.mem_slice.mpr ⟨_, hge, hlt, hsource⟩)
  · refine (space_of_codeAt? (codeAt?_of_codeBetween hbetween hge hlt) hsource).imp_left ?_
    rintro ⟨k, hmem, hk1, hk2⟩
    obtain ⟨k, hk, rfl⟩ := List.mem_map.mp hmem
    refine ⟨k, hk, Nat.le_of_not_lt fun h => ?_, Nat.lt_of_not_le fun h => ?_⟩
    · exact absurd (toSource_lt_of_kept hx h) (Nat.not_lt_of_le hk1)
    · exact absurd (toSource_mono t.toList h) (Nat.not_le_of_lt hk2)

include hc hline hbetween in
/-- The decorated text has white space, comments and what was inserted there. -/
theorem inserted_or_space (h1 : stop ≤ x) (h2 : x < c.offset) :
    (decorated t)[x]? ≠ some '\n' ∧
      ((decoratedScan t).masked.testAt x Text.isSpace = true ∨
        ∃ d, (flagged (decorate t.toList))[x]? = some (d, true) ∧
          (decoratedScan t).masked[x]? = some d ∧ d ≠ ' ') := by
  have hbreak : ∀ y, stop ≤ y → y < c.offset → (decorated t)[y]? ≠ some '\n' := by
    intro y h1 h2 hy
    obtain ⟨inserted, hflag⟩ := exists_flagged hy
    cases inserted with
    | false => exact (space_of_kept hline hbetween h1 h2 hflag).1 rfl
    | true => exact absurd (mark_of_flagged hflag) (by decide)
  have hspaces : ∀ {y}, Scanned.InComment (decoratedScan t).comments y →
      (decoratedScan t).masked.testAt y Text.isSpace = true :=
    fun ⟨k, hk, h1, h2⟩ => Scanned.masked_in_comment hk h1 h2
  refine ⟨hbreak x h1 h2, ?_⟩
  have hquotes : ∀ y d, stop ≤ y → y < c.offset → (decorated t)[y]? = some d →
      Scanned.InComment (decoratedScan t).comments y ∨ Profile.scss.quotes.contains d = false := by
    intro y d h1 h2 hy
    obtain ⟨inserted, hflag⟩ := exists_flagged hy
    cases inserted with
    | false =>
      refine (space_of_kept hline hbetween h1 h2 hflag).2.imp_right fun hspace => ?_
      refine Bool.eq_false_iff.mpr fun hquote => ?_
      have : ∀ q ∈ Profile.scss.quotes, Text.isSpace q = false := by decide
      rw [this d (List.contains_iff_mem.mp hquote)] at hspace
      cases hspace
    | true => rcases mark_of_flagged hflag with rfl | rfl | rfl | rfl <;> exact Or.inr (by decide)
  have hsize := Scanned.comment_bounds hc
  have hget : (decorated t)[x]? = some (decorated t)[x] := Array.getElem?_eq_getElem (by omega)
  obtain ⟨inserted, hflag⟩ := exists_flagged hget
  rcases Scanned.masked_before_comment hc hbreak hquotes h1 h2 with hin | heq
  · exact Or.inl (hspaces hin)
  · rw [hget] at heq
    cases inserted with
    | false =>
      rcases (space_of_kept hline hbetween h1 h2 hflag).2 with hin | hspace
      · exact Or.inl (hspaces hin)
      · exact Or.inl (by rw [Text.testAt_of_getElem? heq, hspace])
    | true =>
      by_cases hblank : (decorated t)[x] = ' '
      · exact Or.inl (by rw [Text.testAt_of_getElem? heq, hblank]; decide)
      · exact Or.inr ⟨_, hflag, heq, hblank⟩

include hc hline hbetween in
/-- Past some code there are white space and closing brackets only: the code was inserted, and so is all
that comes after it on the line. -/
theorem passes_past_code {y : Nat} (h1 : stop ≤ y) (hyx : y < x) (h2 : x < c.offset)
    (hy : (decoratedScan t).masked.testAt y Text.isSpace = false) : passes (decoratedScan t) ['}'] x := by
  obtain ⟨-, hspace | ⟨first, hfirst, -, hblank⟩⟩ :=
    inserted_or_space hc hline hbetween h1 (Nat.lt_trans hyx h2)
  · rw [hy] at hspace
    cases hspace
  obtain ⟨-, hspace | ⟨mark, hmark, heq, -⟩⟩ :=
    inserted_or_space hc hline hbetween (Nat.le_trans h1 (Nat.le_of_lt hyx)) h2
  · exact passes_of_space hspace
  have hclose : mark = '}' := by
    refine (flagged_pair hyx (fun z h3 h4 hz => ?_) hfirst hmark).resolve_left hblank
    exact (inserted_or_space hc hline hbetween (Nat.le_trans h1 h3) (Nat.lt_trans h4 h2)).1
      (getElem?_decorated hz)
  subst hclose
  exact Text.testAt_iff.mpr ⟨'}', heq, by decide⟩

end Between

/-- A comment that follows a declaration in the source comes after it in the decorated text. -/
theorem Sheet.Trail.comesAfter_decorated {limit stop : Nat} {place : Option Nat} {i : MemberInfo}
    (h : (sheetOf .sass t).Trail limit i stop place) (hplain : i.hasNestedObject = false)
    (hc : c ∈ (decoratedScan t).comments)
    (hf : (relocate (backTo t) c).Follows t ((decoratedScan t).comments.map (relocate (backTo t))) i) :
    (sheetOf .sass t).ComesAfter stop place c := by
  let s := decoratedScan t
  obtain ⟨start, first, last, hspan, -⟩ := h.placed
  obtain ⟨span, hspan', hle, hline, hbetween⟩ := hf
  obtain rfl := Option.some.inj (hspan.symm.trans hspan')
  rw [h.separator] at hbetween
  replace hline : '\n' ∉ t.slice (backTo t stop) (backTo t c.offset) := hline
  replace hbetween : codeBetween t (s.comments.map (relocate (backTo t))) (backTo t stop)
    (backTo t c.offset) = [] := hbetween
  have hsize := Scanned.comment_bounds hc
  have hsize' : s.masked.size = (decorated t).size := Scanned.size_masked .scss (decorated t)
  have hstop : stop ≤ c.offset :=
    Nat.le_of_not_lt fun hlt => absurd (backTo_offset_lt hc hlt) (Nat.not_lt_of_le hle)
  have hsame : ∀ x, stop - 1 ≤ x → x < c.offset → (decorated t)[x]? ≠ some '\n' := by
    intro x h1 h2
    by_cases hx : stop ≤ x
    · exact (inserted_or_space hc hline hbetween hx h2).1
    · rw [show x = stop - 1 by omega]
      exact not_break_of_code rfl h.code
  cases place with
  | some place =>
    obtain ⟨hplace, hchar, -⟩ := h.next place rfl
    have hcode : s.masked.testAt place Text.isSpace = false :=
      (Text.testAt_of_getElem? hchar _).trans (by decide)
    by_cases hbefore : c.offset ≤ place
    · -- the semicolon is in no comment
      refine Or.inr ⟨place, rfl, hstop, Nat.le_of_not_lt fun hlt => ?_⟩
      have := (orderly_scan .scss (decorated t)).space c hc place hbefore hlt
      rw [hcode] at this
      cases this
    · have hafter : place < c.offset := Nat.lt_of_not_le hbefore
      have htrails : Trails s ['}'] (place + 1) c := by
        refine ⟨hafter, line_eq_lineAt hc (by omega) fun x h1 h2 => ?_, fun x h1 h2 => ?_⟩
        · exact hsame x (by omega) h2
        · exact passes_past_code hc hline hbetween hplace h1 h2 hcode
      exact Or.inl htrails
  | none =>
    obtain ⟨close, hclose, hends, hgap⟩ := h.bare hplain rfl
    have hchar : close < s.masked.size → s.masked[close]? = some '}' := fun hlt =>
      hends.resolve_right (Nat.ne_of_lt hlt)
    have htrails : Trails s ['}'] stop c := by
      refine ⟨hstop, line_eq_lineAt hc (by omega) hsame, fun x h1 h2 => ?_⟩
      rcases Nat.lt_trichotomy x close with hlt | rfl | hgt
      · exact passes_of_space (hgap x h1 hlt)
      · exact Text.testAt_iff.mpr ⟨'}', hchar (by omega), by decide⟩
      · refine passes_past_code hc hline hbetween hclose hgt h2 ?_
        exact (Text.testAt_of_getElem? (hchar (by omega)) _).trans (by decide)
    exact Or.inl htrails

end MemberOrder.Style
