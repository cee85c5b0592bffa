/-
  The entity of a document whose root comes apart.

  The members of the root stand for its entries. Comments that open the document are not those of the first
  entry; they are taken from its member, which is then the member of an entry that starts below them
  (`Sited.exists_head`). So the entity of the document is a block of members that stand for the entries
  (`Apart.readDocument_eq`). With its members turned it is written as a text that reads as the same entries
  (`IsBlock.writeEntity_reads`), and sorting turns them (`Found.sortedTwin_turned`).
-/
import MemberOrder.Proofs.Layout.Provenance
import MemberOrder.Proofs.Yaml.Writing

namespace MemberOrder.Yaml

open LineTable Layout

namespace Block

/-- The line below which the entries of a range of lines are, of which the first starts on a given line.
Comments that open the range are above it. -/
def floorOf (t : LineTable) (first last number : Nat) : Nat :=
  if opensRange t first last (t.commentsAbove (first - 1) number) then number - 1 else first - 1

theorem floorOf_spec (t : LineTable) (first last number : Nat) :
    first - 1 ≤ floorOf t first last number ∧
      if opensRange t first last (t.commentsAbove (first - 1) number) then
        number = floorOf t first last number + 1
      else first - 1 = floorOf t first last number := by
  unfold floorOf
  cases hopens : opensRange t first last (t.commentsAbove (first - 1) number) with
  | false => exact ⟨Nat.le_refl _, rfl⟩
  | true =>
    cases hcomments : t.commentsAbove (first - 1) number with
    | nil =>
      rw [hcomments] at hopens
      cases hopens
    | cons c more =>
      obtain ⟨hlow, hhigh, -⟩ := place_of_commentsAbove (hcomments ▸ List.mem_cons_self : c ∈ _)
      rw [if_pos rfl, if_pos rfl]
      omega

end Block

open Block

/-! ## The first member -/

/-- The entries of a node looked for from further above on: only the first member may be another, and not
without the comments above it. -/
theorem Sited.exists_head {t : LineTable} {skipped floor last column n above : Nat} {areItems : Bool}
    {lines : List Nat} {node : Node} {m : Member} {rest : List Member}
    (h : Sited t skipped floor last column areItems (n :: lines) node)
    (hmembers : membersOf t skipped node floor last = some (m :: rest)) (hle : above ≤ floor) :
    ∃ head, membersOf t skipped node above last = some (head :: rest) ∧
      head.info.comments = t.commentsAbove above n ∧ (above = floor → head = m) ∧
      (n = floor + 1 →
        head.mapInfo (detach (t.span ((head.info.span.map (·.start)).getD 0) head.unitStop)) = m) := by
  obtain ⟨place, lastStop, hfound, -, hplaces⟩ := h.members_eq
  obtain ⟨child, -, ⟨name, value, hplace⟩, -, -⟩ := List.forall₂_cons_left_iff.mp hplaces
  obtain ⟨stop, stops, hstops⟩ : ∃ stop stops, withStops lastStop (n :: lines) = (n, stop) :: stops := by
    cases lines <;> exact ⟨_, _, rfl⟩
  have hinfo (i : MemberInfo) :=
    info_attachNested t i child.2 (membersOf t skipped child.2)
  have hspan (floor : Nat) : (place floor n stop).info.span = (t.entry n column stop column 0).span := by
    rw [hplace, (hinfo _).1]
    rfl
  rw [hfound floor (Nat.le_refl floor), hstops, layOut] at hmembers
  obtain ⟨rfl, rfl⟩ := List.cons.inj (Option.some.inj hmembers)
  refine ⟨place above n stop, ?_, ?_, ?_, ?_⟩
  · rw [hfound above hle, hstops, layOut, hspan, hspan]
  · rw [hplace, (hinfo _).2.2]
    rfl
  · rintro rfl
    rfl
  · rintro rfl
    rw [Member.unitStop, hplace, hplace, (hinfo _).1, (hinfo _).2.1, attachNested_detach]
    exact congrArg (attachNested t · _ _) (detach_entry t floor column stop above name value)

/-! ## Reading -/

section Root

variable {text : Text} {load : DataLoader} {tag : Option Tag} {o : Options} {first last : Nat}
  {after : List (List Char)} {column : Nat} {areItems : Bool} {s : Strip} {root : Node}

/-- A document whose root comes apart is read as a block of members that stand for its entries. -/
theorem Apart.readDocument_eq (h : Apart load tag o.preserveAnchorsAndAliases (ofText text) (first - 1)
      (floorOf (ofText text) first last s.line) last after column areItems s root)
    (hcount : last ≤ (ofText text).count)
    (hread : read (rangeText (ofText text) first last) true = .ok (some root)) (fileType : FileType) (name : String) :
    ∃ e follows hi m rest, readDocument fileType (ofText text) name first last = .ok { entities := [e] } ∧
      IsBlock (ofText text) root m rest e ∧
      Found load tag o text (first - 1) (floorOf (ofText text) first last s.line) last after column areItems s root
        follows hi m rest := by
  obtain ⟨follows, hi, m, rest, hfound⟩ := h.exists_found hcount
  obtain ⟨hle, hfloor⟩ := floorOf_spec (ofText text) first last s.line
  obtain ⟨head, hmembers, hcomments, hkept, hdetached⟩ : ∃ head,
      membersOf (ofText text) (first - 1) root (first - 1) last = some (head :: rest) ∧
      head.info.comments = (ofText text).commentsAbove (first - 1) s.line ∧
      (first - 1 = floorOf (ofText text) first last s.line → head = m) ∧
      (s.line = floorOf (ofText text) first last s.line + 1 →
        head.mapInfo (detach ((ofText text).span ((head.info.span.map (·.start)).getD 0) head.unitStop)) = m) := by
    have hmembers := hfound.members
    generalize floorOf (ofText text) first last s.line = floor at h hle hmembers ⊢
    cases h with
    | @block _ _ _ _ _ lines _ _ _ _ hsited hstrips =>
      cases lines with
      | nil => cases hstrips
      | cons n lines =>
        obtain ⟨rfl, -⟩ := List.cons.inj hstrips
        exact hsited.exists_head hmembers hle
  refine ⟨blockEntity fileType (ofText text) root name first last head rest, follows, hi, m, rest, ?_, ?_, hfound⟩
  · have hdivided : (!isDivided root) = false := by
      rw [hfound.divided.1]
      rfl
    unfold readDocument
    simp only [hread, hdivided, hfound.divided.2, hmembers, bind, Except.bind, Bool.false_eq_true, if_false]
    rfl
  · rw [← hcomments] at hfloor
    cases hopens : opensRange (ofText text) first last head.info.comments with
    | true =>
      rw [hopens, if_pos rfl] at hfloor
      have hblock := blockEntity_opened fileType root name rest hopens
      rwa [hdetached hfloor] at hblock
    | false =>
      rw [hopens, if_neg (by decide)] at hfloor
      obtain rfl := hkept hfloor
      exact blockEntity_kept fileType root name rest hopens

/-! ## Sorting and writing -/

variable {skipped floor : Nat} {follows : List (List Char)} {hi : Nat} {m : Member} {rest : List Member} {e : Entity}

/-- The entity of a document with its members turned is written as a text that reads as the same entries. -/
theorem Found.writeEntity_reads (h : Found load tag o text skipped floor last after column areItems s root follows
      hi m rest)
    (hblock : IsBlock (ofText text) root m rest e) (hload : LoadsBlocks load tag) (hsize : hi ≤ text.size)
    (hyaml : o.language = .yaml) {ms : List Member} (hturned : Turned areItems (m :: rest) ms) :
    ∃ parts written, SameParts areItems (partsOf root) parts ∧
      ReadsAs load tag column areItems follows written parts ∧
      writeEntity o { e with members := ms } =
        .ok (String.ofList (withOptionsEnding o (Text.ofString e.sourceText).toList written)) := by
  obtain ⟨hlo, hhi⟩ := h.stands.bounds
  have hstands := h.stands
  rw [hlo] at hstands
  obtain ⟨span, hspan, hstart, hstop⟩ : ∃ span, e.span = some span ∧ span.start = m.unitStart ∧ span.stop = hi :=
    ⟨_, hblock.span_eq, rfl, hhi.symm⟩
  have hsource : e.sourceText = text.cut span.start span.stop := by
    rw [hblock.source_eq, hstart, hstop, hhi]
    rfl
  have hx : Shows (settingOf o e span).excerpt text span.start span.stop := shows_settingOf o hsource
  have hrules : Rules.ofFileType o.fileType = Rules.yaml := by
    unfold Rules.ofFileType
    rw [show o.fileType.language = .yaml from hyaml]
  have hwrite : writeEntity o { e with members := ms } = .ok (String.ofList (withOptionsEnding o
      (Text.ofString e.sourceText).toList (if reordered ms then
        dealtEntity (settingOf o e span) span ms else (Text.ofString e.sourceText).toList))) := by
    have hflow : (o.language == .yaml && e.inline) = false := by
      rw [hblock.unlined, Bool.and_false]
    have hsynth : synthesizes Rules.yaml o = false := rfl
    simp only [writeEntity, hflow, Bool.false_eq_true, if_false, writeBlock, hspan, hblock.body_eq.trans hspan,
      hrules, hsynth, settingOf]
    split <;> rfl
  cases hreordered : reordered ms with
  | true =>
    obtain ⟨parts, hsame, hreads⟩ := hstands.dealt_reads hload hrules h.fits
      (hstands.writes hload hrules hx (Nat.le_of_eq hstart) (Nat.le_of_eq hstop.symm)) hx (Nat.le_of_eq hstart)
      (Nat.le_of_eq hstop.symm) hstart hstop hturned
    refine ⟨parts, _, hsame, hreads, ?_⟩
    have hlaid : LaidFrom Unseparated text span.stop span.start (m :: rest) := by
      rw [hstart, hstop]
      exact hstands.laidFrom
    have hto : (settingOf o e span).excerpt.sliceTo span.start = [] := by
      show (settingOf o e span).excerpt.text.slice 0 (span.start - span.start) = []
      exact Text.slice_self _ (by omega)
    have hfrom : (settingOf o e span).excerpt.sliceFrom span.stop = [] := by
      show (settingOf o e span).excerpt.text.slice (span.stop - span.start) _ = []
      exact Text.slice_self _ (Nat.le_of_eq (size_settingOf o hsource (hstop ▸ hsize)))
    rw [hwrite, hreordered, if_pos rfl]
    simp only [dealtEntity, bounds_eq hlaid hturned.rearranged, hto, hfrom, List.nil_append, List.append_nil]
  | false =>
    refine ⟨_, _, .refl _ _, hstands.slice_reads hload h.fits, ?_⟩
    rw [hwrite, hreordered, if_neg (by decide), hsource, ← hstart, ← hstop]
    simp [Text.ofString, Text.cut]

end Root

end MemberOrder.Yaml
