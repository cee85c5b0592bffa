/-
  Whether the separator that is found after a member is its own.

  A member ends with the first code after its span, if that is a separator (`MemberInfo.EndsAt`). The
  place is not kept: when the unit of the member is written, its separator is searched for again in the
  text after the member, past the trailing comments. A comment between the two that holds the same
  character and is none of the trailing ones is taken for the separator, and nothing else is
  (`Separated.found_iff`). Comments before the separator are trailing ones in scripts, style sheets and
  JSON (`Separated.of_placed`), where the search is right; in Go none of them is
  (`Separated.of_ahead`), and the search is right only if none holds a semicolon
  (`ownSeparator_found_iff`).
-/
import MemberOrder.Proofs.Comments.Trailing
import MemberOrder.Proofs.Layout.Separators

namespace MemberOrder

open Attachment Layout

/-! ## The place where a member ends -/

/-- A member ends with its separator at an offset: nothing but white space and comments stands before
it, and it is in no comment itself. -/
def MemberInfo.EndsAt (t : Text) (comments : List Comment) (i : MemberInfo) (place : Nat) : Prop :=
  ∃ span, i.span = some span ∧ span.stop ≤ place ∧ codeBetween t comments span.stop place = [] ∧
    (codeAt? t comments place).map String.singleton = some i.separator

instance (t : Text) (comments : List Comment) (i : MemberInfo) (place : Nat) :
    Decidable (i.EndsAt t comments place) :=
  inferInstanceAs (Decidable (∃ span ∈ i.span, span.stop ≤ place ∧
    codeBetween t comments span.stop place = [] ∧
    (codeAt? t comments place).map String.singleton = some i.separator))

/-- A comment after a member, before an offset, that holds the separator of the member. -/
def Comment.Misleads (t : Text) (i : MemberInfo) (place : Nat) (c : Comment) : Prop :=
  ∃ span, i.span = some span ∧ span.stop ≤ c.offset ∧ c.stop ≤ place ∧
    ∃ ch ∈ i.separator.toList, ch ∈ t.slice c.offset c.stop

instance (t : Text) (i : MemberInfo) (place : Nat) (c : Comment) : Decidable (c.Misleads t i place) :=
  inferInstanceAs (Decidable (∃ span ∈ i.span, span.stop ≤ c.offset ∧ c.stop ≤ place ∧
    ∃ ch ∈ i.separator.toList, ch ∈ t.slice c.offset c.stop))

variable {p : Profile} {t : Text} {i : MemberInfo} {span unit : Span} {place : Nat}

/-- A separator is in the source what it is in the masked text. -/
theorem SeparatorNext.source (h : SeparatorNext (Scanned.scan p t) i.separator span.stop (some place)) :
    ∃ ch, (ch = ',' ∨ ch = ';') ∧ i.separator = String.singleton ch ∧ t[place]? = some ch ∧
      Text.isSpace ch = false ∧ (Scanned.scan p t).masked.testAt place Text.isSpace = false := by
  obtain ⟨-, -, ch, hch, hsep, hchar⟩ := h
  have hplain : Text.isSpace ch = false ∧ ch ≠ '_' := by
    rcases hch with rfl | rfl <;> decide
  refine ⟨ch, hch, hsep, Scanned.source_of_masked hchar hplain.1 hplain.2, hplain.1, ?_⟩
  rw [Text.testAt_of_getElem? hchar, hplain.1]

/-- No comment covers code. -/
theorem not_inComment_of_code {x : Nat} (h : (Scanned.scan p t).masked.testAt x Text.isSpace = false) :
    ¬Scanned.InComment (Scanned.scan p t).comments x := by
  rintro ⟨k, hk, h1, h2⟩
  rw [Scanned.masked_in_comment hk h1 h2] at h
  cases h

/-- A comment lies on one side of code. -/
theorem beside_of_code {k : Comment} {x : Nat} (hk : k ∈ (Scanned.scan p t).comments)
    (h : (Scanned.scan p t).masked.testAt x Text.isSpace = false) : x < k.offset ∨ k.stop ≤ x := by
  rcases Nat.lt_or_ge x k.offset with hlt | hle
  · exact Or.inl hlt
  · exact Or.inr (Nat.le_of_not_lt fun hlt => not_inComment_of_code h ⟨k, hk, hle, hlt⟩)

/-- The next code is not past any other. -/
theorem SeparatorNext.le_of_code {x : Nat} {c : Char}
    (h : SeparatorNext (Scanned.scan p t) i.separator span.stop (some place)) (hle : span.stop ≤ x)
    (hx : t[x]? = some c) (hink : Text.isSpace c = false)
    (hout : ¬Scanned.InComment (Scanned.scan p t).comments x) : place ≤ x := by
  obtain ⟨-, hgap, -⟩ := h
  refine Nat.le_of_not_lt fun hlt => ?_
  rcases Scanned.space_of_masked (hgap x hle hlt) with hblank | hin
  · rw [Text.testAt_of_getElem? hx, hink] at hblank
    cases hblank
  · exact hout hin

/-- A member ends where its separator is the next code. -/
theorem SeparatorNext.endsAt (hspan : i.span = some span)
    (h : SeparatorNext (Scanned.scan p t) i.separator span.stop (some place)) :
    i.EndsAt t (Scanned.scan p t).comments place := by
  obtain ⟨ch, -, hsep, hchar, hspace, hcode⟩ := h.source
  refine ⟨span, hspan, h.1, List.filterMap_eq_nil_iff.mpr fun x hx => ?_, ?_⟩
  · obtain ⟨h1, h2⟩ := List.mem_range'_1.mp hx
    refine Option.eq_none_iff_forall_ne_some.mpr fun d hd => ?_
    obtain ⟨hd, hink, hout⟩ := codeAt?_eq_some.mp hd
    have := h.le_of_code h1 hd hink hout
    omega
  · rw [codeAt?_eq_some.mpr ⟨hchar, hspace, not_inComment_of_code hcode⟩, hsep]
    rfl

/-! ## Finding the place again -/

/-- A member whose separator is the next code after it and lies in its unit. -/
structure Separated (p : Profile) (t : Text) (i : MemberInfo) (span unit : Span) (place : Nat) : Prop where
  span_eq : i.span = some span
  unit_eq : i.unit = some unit
  code : (Scanned.scan p t).masked.testAt (span.stop - 1) Text.isSpace = false
  next : SeparatorNext (Scanned.scan p t) i.separator span.stop (some place)
  inside : place < unit.stop
  known : ∀ k ∈ i.trailingComments, k ∈ (Scanned.scan p t).comments

/-- The search finds the separator of a member unless a comment in front of it, none of the trailing
ones, holds the same character. -/
theorem Separated.found_iff (h : Separated p t i span unit place) (hplaced : Placed t i span unit) :
    ownSeparatorIndex? i (t.slice span.stop unit.stop) = some (place - span.stop) ↔
      ∀ c ∈ (Scanned.scan p t).comments, c.Misleads t i place → c ∈ i.trailingComments := by
  obtain ⟨ch, hch, hsep, hchar, hspace, hplace⟩ := h.next.source
  have hle := h.next.1
  have hinside := h.inside
  -- wherever the character stands outside of the trailing comments, the search goes no further
  have hstops : ∀ x, span.stop ≤ x → x ≤ place → t[x]? = some ch → ¬InTrailing i x →
      ∃ found, span.stop ≤ found ∧ found ≤ x ∧ t[found]? = some ch ∧ ¬InTrailing i found ∧
        ownSeparatorIndex? i (t.slice span.stop unit.stop) = some (found - span.stop) :=
    fun x h1 h2 hx hout => ownSeparatorIndex?_found hplaced ⟨hch, hsep, hx,
      ⟨span, unit, h.span_eq, h.unit_eq, h1, by omega⟩, fun k hk hin => hout ⟨k, hk, hin⟩⟩
  constructor
  · rintro hfound c hc ⟨span', hspan, h1, h2, d, hd, hmem⟩
    obtain rfl := Option.some.inj (h.span_eq.symm.trans hspan)
    rw [hsep, String.toList_singleton, List.mem_singleton] at hd
    subst hd
    obtain ⟨x, h3, h4, hx⟩ := Text.mem_slice.mp hmem
    by_cases hin : InTrailing i x
    · obtain ⟨k, hk, hcovers⟩ := hin
      obtain rfl := (orderly_scan p t).eq_of_meet hc (h.known k hk) (by omega) (by omega)
      exact hk
    · obtain ⟨found, h5, h6, -, -, hfound'⟩ := hstops x (by omega) (by omega) hx hin
      have := Option.some.inj (hfound.symm.trans hfound')
      omega
  · intro hall
    have hout : ¬InTrailing i place := fun ⟨k, hk, hin⟩ =>
      not_inComment_of_code hplace ⟨k, h.known k hk, hin⟩
    obtain ⟨found, h1, h2, hx, hfree, hfound⟩ := hstops place hle (Nat.le_refl _) hchar hout
    obtain rfl | hlt := Nat.eq_or_lt_of_le h2
    · exact hfound
    -- before the separator, the character would stand in a comment
    · exfalso
      refine Nat.not_le_of_lt hlt (h.next.le_of_code h1 hx hspace ?_)
      rintro ⟨k, hk, hcovers⟩
      have hafter := beside_of_code hk h.code
      have hbefore := beside_of_code hk hplace
      refine hfree ⟨k, hall k hk ⟨span, h.span_eq, by omega, by omega, ch, ?_, ?_⟩, hcovers⟩
      · rw [hsep, String.toList_singleton]
        exact List.mem_singleton_self ch
      · exact Text.mem_slice.mpr ⟨found, hcovers.1, hcovers.2, hx⟩

/-- A comment is a trailing one if it starts where only white space and trailing comments stand, as it
starts with a slash, which is no white space. -/
theorem mem_trailing_of_start {c : Comment} (hc : c ∈ (Scanned.scan p t).comments)
    (hknown : ∀ k ∈ i.trailingComments, k ∈ (Scanned.scan p t).comments)
    (h : t.testAt c.offset Text.isSpace = true ∨ InTrailing i c.offset) : c ∈ i.trailingComments := by
  rcases h with hblank | ⟨k, hk, hcovers⟩
  · rw [Text.testAt_of_getElem? (Scanned.slash_of_comment hc)] at hblank
    cases hblank
  · have := Scanned.comment_bounds hc
    obtain rfl := (orderly_scan p t).eq_of_meet hc (hknown k hk) (by omega) (by omega)
    exact hk

/-- A separator with nothing but white space and trailing comments before it is the next code, and all
comments before it are trailing ones. -/
theorem Separated.of_placed (hplaced : Placed t i span unit) (h : SeparatorPlaced t i)
    (hcode : (Scanned.scan p t).masked.testAt (span.stop - 1) Text.isSpace = false)
    (hnext : SeparatorNext (Scanned.scan p t) i.separator span.stop (some place))
    (hknown : ∀ k ∈ i.trailingComments, k ∈ (Scanned.scan p t).comments) :
    Separated p t i span unit place ∧ ∀ c ∈ (Scanned.scan p t).comments, span.stop ≤ c.offset →
      c.stop ≤ place → c ∈ i.trailingComments := by
  obtain ⟨ch, hch, hsep, hchar, hspace, hplace⟩ := hnext.source
  rcases h with hnone | ⟨d, own, hat, hbetween⟩
  · rw [hsep] at hnone
    exact absurd hnone String.singleton_ne_empty
  obtain ⟨-, hd, hown, ⟨span', unit', hspan', hunit', hfrom, hto⟩, hout⟩ := hat
  obtain rfl := Option.some.inj (hplaced.span_eq.symm.trans hspan')
  obtain rfl := Option.some.inj (hplaced.unit_eq.symm.trans hunit')
  obtain rfl : ch = d := by simpa [hsep] using hd
  have hheld : ∀ c ∈ (Scanned.scan p t).comments, span.stop ≤ c.offset → c.offset < own →
      c ∈ i.trailingComments := fun c hc h1 h2 =>
    mem_trailing_of_start hc hknown (hbetween span hplaced.span_eq c.offset h1 h2)
  -- a comment with the separator in it would start before it, and so be a trailing one
  have hfree : ¬Scanned.InComment (Scanned.scan p t).comments own := by
    rintro ⟨k, hk, hcovers⟩
    have hafter := beside_of_code hk hcode
    have hne : k.offset ≠ own := by
      intro heq
      have hslash := Scanned.slash_of_comment hk
      rw [heq, hown] at hslash
      rcases hch with rfl | rfl <;> cases hslash
    exact hout k (hheld k hk (by omega) (by omega)) hcovers
  have hle : own ≤ place := by
    refine Nat.le_of_not_lt fun hlt => ?_
    rcases hbetween span hplaced.span_eq place hnext.1 hlt with hblank | ⟨k, hk, hcovers⟩
    · rw [Text.testAt_of_getElem? hchar, hspace] at hblank
      cases hblank
    · exact not_inComment_of_code hplace ⟨k, hknown k hk, hcovers⟩
  obtain rfl : own = place := Nat.le_antisymm hle (hnext.le_of_code hfrom hown hspace hfree)
  refine ⟨⟨hplaced.span_eq, hplaced.unit_eq, hcode, hnext, hto, hknown⟩, fun c hc h1 h2 => ?_⟩
  have hbounds := Scanned.comment_bounds hc
  exact hheld c hc h1 (by omega)

/-- A separator in front of all trailing comments is the next code. -/
theorem Separated.of_ahead (hplaced : Placed t i span unit) (h : SeparatorAhead p t i)
    (hsep : i.separator ≠ "")
    (hcode : (Scanned.scan p t).masked.testAt (span.stop - 1) Text.isSpace = false)
    (hknown : ∀ k ∈ i.trailingComments, k ∈ (Scanned.scan p t).comments) :
    ∃ place, Separated p t i span unit place ∧ ∀ k ∈ i.trailingComments, place < k.offset := by
  obtain ⟨span', unit', place, hspan, hunit, hinside, hnext, hafter⟩ := h.resolve_left hsep
  obtain rfl := Option.some.inj (hplaced.span_eq.symm.trans hspan)
  obtain rfl := Option.some.inj (hplaced.unit_eq.symm.trans hunit)
  exact ⟨place, ⟨hspan, hunit, hcode, hnext, hinside, hknown⟩, hafter⟩

/-! ## Every language -/

variable {fileType : FileType} {e : Entity} {outer : Option Span} {ms : List Member} {m : Member}

/-- The comments of a member are comments of its list. -/
theorem Member.attached_subset (hm : m ∈ ms) : m.attached ⊆ attachedIn ms := by
  induction ms with
  | nil => cases hm
  | cons first rest ih =>
    rcases List.mem_cons.mp hm with rfl | hm
    · exact List.subset_append_left _ _
    · exact List.Subset.trans (ih hm) (List.subset_append_right _ _)

/-- The comments of a member list are comments of the entity. -/
theorem Entity.Lists.attached_subset (h : e.Lists outer ms) : attachedIn ms ⊆ e.attached := by
  induction h with
  | top => exact List.subset_append_right _ _
  | nested _ hi ih =>
    exact List.Subset.trans (List.subset_append_right _ _)
      (List.Subset.trans (Member.attached_subset hi) ih)

/-- The trailing comments of a member are comments of its source. -/
theorem trailing_known (hyaml : fileType.language ≠ .yaml) (he : e ∈ (readSource fileType t).entities)
    (hlist : e.Lists outer ms) (hm : m ∈ ms) {c : Comment} (hc : c ∈ m.info.trailingComments) :
    c ∈ readComments fileType t := by
  have hown : c ∈ m.attached := by
    cases m <;> simp_all [Member.attached, Member.info]
  exact (readSource_keeps hyaml t).1.2 c
    (List.mem_flatMap.mpr ⟨e, he, hlist.attached_subset (Member.attached_subset hm hown)⟩)

/-- What every reader knows of the separator of a member: it is the next code after it, and the comments
before it are trailing ones, all of them, but in Go, where none is. -/
def KnownSeparator (fileType : FileType) (t : Text) (i : MemberInfo) : Prop :=
  ∃ p span unit place, readComments fileType t = (Scanned.scan p t).comments ∧ Placed t i span unit ∧
    Separated p t i span unit place ∧
    (fileType.language ≠ .go → ∀ c ∈ (Scanned.scan p t).comments, span.stop ≤ c.offset →
      c.stop ≤ place → c ∈ i.trailingComments) ∧
    (fileType.language = .go → ∀ k ∈ i.trailingComments, place < k.offset)

/-- Where members are read between brackets and the comments before a separator are handed out. -/
theorem knownSeparator_of_tended {p : Profile} {a b : Nat} {es : List Entity}
    (hgo : fileType.language ≠ .go) (hcomments : readComments fileType t = (Scanned.scan p t).comments)
    (hchain : Chain (Entity.LaidOut (Loose (Tended SeparatorPlaced p) t) t) a b es) (he : e ∈ es)
    (hlist : e.Lists outer ms) (hm : m ∈ ms) (hsep : m.info.separator ≠ "")
    (hknown : ∀ k ∈ m.info.trailingComments, k ∈ readComments fileType t) :
    KnownSeparator fileType t m.info := by
  obtain ⟨hseparator, span, unit, place, hplaced, hholds⟩ := tended_of_lists hchain he hlist hm
  have hnext := hholds.separator
  cases place with
  | none => exact absurd hnext hsep
  | some place =>
    rw [hcomments] at hknown
    obtain ⟨hseparated, hearly⟩ := Separated.of_placed hplaced hseparator hholds.code hnext hknown
    exact ⟨p, span, unit, place, hcomments, hplaced, hseparated, fun _ => hearly, fun h => absurd h hgo⟩

/-- A member of a style sheet has no separator in the indented dialect, and else the semicolon of its
declaration. -/
theorem Style.knownSeparator (hlanguage : fileType.language = .css)
    (he : e ∈ (Style.read fileType t).entities) (hlist : e.Lists outer ms) (hm : m ∈ ms)
    (hsep : m.info.separator ≠ "")
    (hknown : ∀ k ∈ m.info.trailingComments, k ∈ readComments fileType t) :
    KnownSeparator fileType t m.info := by
  obtain ⟨es, htrails, hes⟩ := read_trails fileType t
  have hread : e ∈ (Style.read fileType t).entities := he
  rw [hes] at he
  by_cases hsass : fileType = .sass
  · subst hsass
    obtain ⟨e, hinner, rfl⟩ := List.mem_map.mp he
    obtain ⟨ms', hms', rfl⟩ := lists_relocateEntity hlist
    rw [relocateMembers_eq_map] at hm
    obtain ⟨m, hinside, rfl⟩ := List.mem_map.mp hm
    obtain ⟨front, rest, rfl⟩ := List.append_of_mem hinside
    obtain ⟨_, _, _, htrail, -⟩ := ((htrails e hinner).of_lists hms').holds
    rw [info_relocateMember] at hsep
    exact absurd htrail.separator hsep
  · have hplain := isIndented_sheetOf hsass t
    rw [hplain, if_neg Bool.false_ne_true] at he
    obtain ⟨front, rest, rfl⟩ := List.append_of_mem hm
    obtain ⟨_, stop, place, htrail, -⟩ := ((htrails e he).of_lists hlist).holds
    have hnext := htrail.separatorNext hplain
    have hcode := htrail.code
    obtain ⟨start, first, last, hspan, -⟩ := htrail.placed
    obtain ⟨p, -, heq⟩ := sheetOf_plain hsass t
    have hcomments : readComments fileType t = (Scanned.scan p t).comments := by
      simp only [readComments, hlanguage]
      rw [Sheet.comments, hplain, if_neg Bool.false_ne_true, heq]
    have hgo : fileType.language ≠ .go := by simp [hlanguage]
    rw [heq] at hspan hnext hcode
    obtain ⟨i, j, hlaid, -, -⟩ := (Style.read_chain fileType t).of_mem (fun _ _ _ he => he.le) hread
    obtain ⟨-, lo, hi, -, -, -, hfrom⟩ := hlaid.lists hlist
    obtain ⟨⟨hseparator, -⟩, span, unit, hplaced⟩ := (hfrom.of_mem hm).1.placed
    obtain rfl := Option.some.inj (hspan.symm.trans hplaced.span_eq)
    cases place with
    | none => exact absurd hnext hsep
    | some place =>
      rw [hcomments] at hknown
      obtain ⟨hseparated, hearly⟩ := Separated.of_placed hplaced hseparator hcode hnext hknown
      exact ⟨p, _, unit, place, hcomments, hplaced, hseparated, fun _ => hearly, fun h => absurd h hgo⟩

/-- A field of a struct, whose trailing comments come after its semicolon. -/
theorem Struct.knownSeparator (hlanguage : fileType.language = .go)
    (he : e ∈ (Struct.read fileType t).entities) (hlist : e.Lists outer ms) (hm : m ∈ ms)
    (hsep : m.info.separator ≠ "")
    (hknown : ∀ k ∈ m.info.trailingComments, k ∈ readComments fileType t) :
    KnownSeparator fileType t m.info := by
  have hcomments : readComments fileType t = (Scanned.scan .go t).comments := by
    simp only [readComments, hlanguage]
  rw [hcomments] at hknown
  obtain ⟨hahead, span, unit, _, hplaced, hholds⟩ :=
    tended_of_lists (Struct.read_chain fileType t) he hlist hm
  obtain ⟨place, hseparated, hafter⟩ := Separated.of_ahead hplaced hahead hsep hholds.code hknown
  exact ⟨.go, span, unit, place, hcomments, hplaced, hseparated, fun h => absurd hlanguage h,
    fun _ => hafter⟩

/-- Every member with a separator that is read from a scanned source, at any depth. -/
theorem readSource_knownSeparator (hyaml : fileType.language ≠ .yaml)
    (he : e ∈ (readSource fileType t).entities) (hlist : e.Lists outer ms) (hm : m ∈ ms)
    (hsep : m.info.separator ≠ "") : KnownSeparator fileType t m.info := by
  have hknown := fun k => trailing_known hyaml he hlist hm (c := k)
  cases hlanguage : fileType.language with
  | typescript =>
    simp only [readSource, hlanguage] at he
    exact knownSeparator_of_tended (by simp [hlanguage]) (by simp only [readComments, hlanguage])
      (Script.read_chain fileType t) he hlist hm hsep hknown
  | css =>
    simp only [readSource, hlanguage] at he
    exact Style.knownSeparator hlanguage he hlist hm hsep hknown
  | go =>
    simp only [readSource, hlanguage] at he
    exact Struct.knownSeparator hlanguage he hlist hm hsep hknown
  | json =>
    simp only [readSource, hlanguage] at he
    exact knownSeparator_of_tended (by simp [hlanguage]) (by simp only [readComments, hlanguage])
      (Json.read_chain fileType t) he hlist hm hsep hknown
  | yaml => exact absurd hlanguage hyaml

/-- A member with a separator, at any depth, ends at a place in its unit, and the search after the member
finds this place. Only in Go may it find another one: there it finds the place if and only if no
comment between the two holds a semicolon too. -/
theorem ownSeparator_found_iff (hyaml : fileType.language ≠ .yaml)
    (he : e ∈ (readSource fileType t).entities) (hlist : e.Lists outer ms) (hm : m ∈ ms)
    (hsep : m.info.separator ≠ "") :
    ∃ span unit place, m.info.span = some span ∧ m.info.unit = some unit ∧ place < unit.stop ∧
      m.info.EndsAt t (readComments fileType t) place ∧
      (ownSeparatorIndex? m.info (t.slice span.stop unit.stop) = some (place - span.stop) ↔
        (fileType.language = .go → ∀ c ∈ readComments fileType t, ¬c.Misleads t m.info place)) := by
  obtain ⟨p, span, unit, place, hcomments, hplaced, h, hearly, hafter⟩ :=
    readSource_knownSeparator hyaml he hlist hm hsep
  rw [hcomments]
  refine ⟨span, unit, place, h.span_eq, h.unit_eq, h.inside, h.next.endsAt h.span_eq, ?_⟩
  rw [h.found_iff hplaced]
  by_cases hgo : fileType.language = .go
  · refine ⟨fun hall _ c hc hmisleads => ?_, fun hnone c hc hmisleads => absurd hmisleads (hnone hgo c hc)⟩
    have hmem := hall c hc hmisleads
    obtain ⟨-, -, -, hstop, -⟩ := hmisleads
    have := hafter hgo c hmem
    have := Scanned.comment_bounds hc
    omega
  · refine iff_of_true (fun c hc hmisleads => ?_) fun h => absurd h hgo
    obtain ⟨span', hspan, h1, h2, -⟩ := hmisleads
    obtain rfl := Option.some.inj (h.span_eq.symm.trans hspan)
    exact hearly hgo c hc h1 h2

/-- An interface with a comment that holds a semicolon before the semicolon of a member. -/
def notedMember : Text := Text.ofString "interface T \x7b b: string /* ; */; a: number \x7d"

/-- The search passes over the comment. -/
theorem ownSeparator_found_past_note :
    ∃ e ∈ (readSource .typescript notedMember).entities, ∃ m ∈ e.members,
      ∃ span ∈ m.info.span, ∃ unit ∈ m.info.unit, ∃ place,
        (∃ c ∈ readComments .typescript notedMember, c.Misleads notedMember m.info place) ∧
        ownSeparatorIndex? m.info (notedMember.slice span.stop unit.stop) = some (place - span.stop) := by
  have hread : ∃ e ∈ (readSource .typescript notedMember).entities, ∃ m ∈ e.members,
      m.info.separator = ";" ∧ ∃ span ∈ m.info.span, ∃ c ∈ readComments .typescript notedMember,
        span.stop ≤ c.offset ∧ ';' ∈ notedMember.slice c.offset c.stop ∧
        codeBetween notedMember (readComments .typescript notedMember) span.stop c.stop = [] := by
    decide +kernel
  obtain ⟨e, he, m, hm, hsep, span', hspan', c, hc, hle, hholds, hempty⟩ := hread
  obtain ⟨span, unit, place, hspan, hunit, -, hends, hiff⟩ :=
    ownSeparator_found_iff (by decide) he .top hm (by simp [hsep])
  obtain rfl := Option.some.inj (hspan.symm.trans hspan')
  obtain ⟨span', hspan', hstop, -, hchar⟩ := hends
  obtain rfl := Option.some.inj (hspan.symm.trans hspan')
  refine ⟨e, he, m, hm, span, hspan, unit, hunit, place,
    ⟨c, hc, span, hspan, hle, ?_, ';', by simp [hsep], hholds⟩,
    hiff.mpr fun hgo => absurd hgo (by decide)⟩
  -- no code stands before the end of the comment
  refine Nat.le_of_not_lt fun hlt => ?_
  rw [codeAt?_of_codeBetween hempty hstop hlt] at hchar
  cases hchar

/-- A struct with such a comment. -/
def notedField : String := "type T struct \x7b B int /* ; */; A int \x7d"

/-- In Go the search ends in the comment. The semicolon that is taken out of the field when it is moved is
that of the comment, and the one that ends the field stays. -/
theorem ownSeparator_missed :
    (∃ e ∈ (readSource .go (Text.ofString notedField)).entities, ∃ m ∈ e.members,
      ∃ span ∈ m.info.span, ∃ unit ∈ m.info.unit, m.info.separator = ";" ∧
        m.info.EndsAt (Text.ofString notedField) (readComments .go (Text.ofString notedField)) 29 ∧
        span.stop = 21 ∧
        ownSeparatorIndex? m.info ((Text.ofString notedField).slice span.stop unit.stop) = some 4 ∧
        ∃ c ∈ readComments .go (Text.ofString notedField), c.offset ≤ 25 ∧ 25 < c.stop) ∧
    (processWith { fileType := .go } notedField).processedText =
      some "type T struct \x7b A int; B int /*  */; \x7d" := by
  decide +kernel

end MemberOrder
