/-
  Entities that stay as they were written.

  Whether a run writes anything is decided for the whole source, by the names of all members; what is
  written for an entity is decided by the entity alone. So a run puts a text in the place of every
  entity (`placedText`), and keeps what is between them (`processWith_places`). While no option asks for
  a layout, the text of an entity that sorting leaves in source order is its own
  (`placedText_of_unmoved`), and so is that of an entity that cannot be sorted. An option that asks for
  a layout is obeyed in every entity once a member of some entity moves
  (`processWith_lays_out_unmoved`).
-/
import MemberOrder.Proofs.Layout.Noticing
import MemberOrder.Proofs.Layout.Provenance
import MemberOrder.Proofs.Layout.Substituting

namespace MemberOrder

open Layout

/-- Whether an entity is to stay as it is: its sorted member lists are all in source order, or it cannot
be sorted. -/
def Unmoved (o : Options) (e : Entity) : Prop :=
  reordered (sortedTwin o e).members = false ∨
    ∃ err, (Sorter.ofLanguage o.language).sortEntity o e = .error err

/-- The text that a run puts in the place of an entity without namesakes: its rendering, or its own text
where the run writes nothing. -/
def placedText (o : Options) (es : List Entity) (e : Entity) : String :=
  if hasChanges es (sortEntities o es).1 then rendering o (sortedTwin o e) else e.sourceText

theorem placedText_of_changes {o : Options} {es : List Entity}
    (h : hasChanges es (sortEntities o es).1 = true) (e : Entity) :
    placedText o es e = rendering o (sortedTwin o e) := if_pos h

theorem placedText_of_no_changes {o : Options} {es : List Entity}
    (h : hasChanges es (sortEntities o es).1 = false) (e : Entity) :
    placedText o es e = e.sourceText := if_neg (by simp [h])

/-! ## The place of every entity -/

/-- A text with its entities written over by their own texts is the text. -/
theorem overwrite_sourceText {P : MemberInfo → Prop} {t : Text} {a b : Nat} {es : List Entity}
    (h : Chain (Entity.LaidOut P t) a b es) :
    overwrite t.toList a ((located es).map fun x => (x.2, x.1.sourceText)) = t.toList.drop a := by
  rw [← overwrite_self (located_chain h)]
  congr 1
  refine List.map_congr_left fun x hx => ?_
  obtain ⟨e, he, hx⟩ := List.mem_filterMap.mp hx
  obtain ⟨span, hspan, rfl⟩ := Option.map_eq_some_iff.mp hx
  obtain ⟨i, j, hlaid, -, -⟩ := h.of_mem (fun _ _ _ he => he.le) he
  obtain ⟨rfl, rfl⟩ := hlaid.bounds_eq hspan
  rw [hlaid.text, Text.cut, Text.slice_eq_take_drop]

/-- Among entities with different keys a run puts the text of each in its place and keeps the rest. -/
theorem processWith_places {o : Options} (hyaml : o.fileType.language ≠ .yaml) {source out : String}
    (hkeys : ((readSource o.fileType (Text.ofString source)).entities.map Entity.key).Nodup)
    (h : (processWith o source).processedText = some out) :
    out.toList = overwrite source.toList 0
      ((located (readSource o.fileType (Text.ofString source)).entities).map fun x =>
        (x.2, placedText o (readSource o.fileType (Text.ofString source)).entities x.1)) := by
  have hchain := readSource_chain hyaml (Text.ofString source)
  have htext : (Text.ofString source).toList = source.toList := rfl
  rcases processedText_cases h with ⟨hchanges, -⟩ | ⟨hchanges, rfl⟩
  · rw [(processWith_overwrites o hyaml source hchanges).1, Option.some.injEq] at h
    simp only [← h, String.toList_ofList, placedText_of_changes hchanges]
    congr 1
    refine List.map_congr_left fun x hx => ?_
    obtain ⟨e, he, hx⟩ := List.mem_filterMap.mp hx
    obtain ⟨span, -, rfl⟩ := Option.map_eq_some_iff.mp hx
    -- with different keys every entity is its own last namesake
    have htwin := twin?_of_distinct (o := o) hkeys he
    rw [sortEntities_eq_map, twin?_map_sortedTwin, twin?_of_mem he, Option.map_some,
      Option.some.injEq] at htwin
    rw [htwin]
  · simp only [placedText_of_no_changes hchanges]
    rw [← htext, overwrite_sourceText hchain, List.drop_zero]

/-! ## Entities that do not move -/

/-- An entity that cannot be sorted stays in source order. -/
theorem Unmoved.not_reordered {o : Options} (hyaml : o.fileType.language ≠ .yaml) {t : Text} {e : Entity}
    (he : e ∈ (readSource o.fileType t).entities) (h : Unmoved o e) :
    reordered (sortedTwin o e).members = false := by
  rcases h with h | ⟨err, herr⟩
  · exact h
  · rw [← Bool.not_eq_true, reordered_sortedTwin_iff hyaml he, not_not, sortedTwin, herr]

/-- While no option asks for a layout, an entity in source order is written as it is. -/
theorem writeEntity_of_inOrder {o : Options} (hyaml : o.fileType.language ≠ .yaml)
    (hlayout : o.asksForLayout = false) (hending : o.lineEnding = .auto) {e : Entity}
    {span body : Span} (hspan : e.span = some span) (hbody : e.body = some body)
    (h : reordered e.members = false) : writeEntity o e = .ok e.sourceText := by
  have hsynth : synthesizes (Rules.ofFileType o.fileType) o = false := by
    simp [synthesizes, hlayout]
  rw [writeEntity_eq_writeBlock hyaml]
  simp only [writeBlock, hspan, hbody, hsynth, h, withOptionsEnding, hending, Bool.false_eq_true,
    if_false, beq_self_eq_true, if_true]
  exact congrArg Except.ok String.ofList_toList

/-- The text in the place of an entity that does not move is its own, whatever the other entities are,
while no option asks for a layout or no names change. -/
theorem placedText_of_unmoved {o : Options} (hyaml : o.fileType.language ≠ .yaml)
    (hending : o.lineEnding = .auto) {t : Text} {e : Entity}
    (he : e ∈ (readSource o.fileType t).entities) (h : Unmoved o e) {es : List Entity}
    (hlayout : o.asksForLayout = false ∨ hasChanges es (sortEntities o es).1 = false) :
    placedText o es e = e.sourceText := by
  cases hchanges : hasChanges es (sortEntities o es).1 with
  | false => exact placedText_of_no_changes hchanges e
  | true =>
    have hlayout : o.asksForLayout = false := hlayout.resolve_right (by simp [hchanges])
    obtain ⟨i, j, hlaid, -, -⟩ := (readSource_chain hyaml t).of_mem (fun _ _ _ he => he.le) he
    obtain ⟨span, hspan, -, -⟩ := hlaid.span_eq
    obtain ⟨body, hbody, -⟩ := hlaid.members
    have htwin := sortedTwin_eq o e
    have hspan' : (sortedTwin o e).span = some span := by
      rw [htwin]
      exact hspan
    have hbody' : (sortedTwin o e).body = some body := by
      rw [htwin]
      exact hbody
    have htext : (sortedTwin o e).sourceText = e.sourceText := by
      rw [htwin]
    rw [placedText_of_changes hchanges, rendering,
      writeEntity_of_inOrder hyaml hlayout hending hspan' hbody' (h.not_reordered hyaml he)]
    exact htext

/-! ## Entities that cannot be sorted -/

theorem unsorted_mem_sortEntities {o : Options} {es : List Entity} {e : Entity} (he : e ∈ es)
    {err : SortError} (h : (Sorter.ofLanguage o.language).sortEntity o e = .error err) :
    Notice.unsorted err ∈ (sortEntities o es).2 := by
  induction es with
  | nil => exact absurd he List.not_mem_nil
  | cons x rest ih =>
    rcases List.mem_cons.mp he with rfl | he
    · simp [sortEntities, h]
    · simp only [sortEntities]
      split
      · exact ih he
      · exact List.mem_cons_of_mem _ (ih he)

/-- An entity that cannot be sorted has members. -/
theorem members_of_sortEntity_error {sorter : Sorter} {o : Options} {e : Entity} {err : SortError}
    (h : sorter.sortEntity o e = .error err) : e.members.isEmpty = false := by
  refine Bool.eq_false_iff.mpr fun hempty => ?_
  simp only [Sorter.sortEntity, Sorter.sortMembers, hempty, if_true] at h
  cases h

/-- A run warns of every entity that cannot be sorted. -/
theorem unsorted_mem_warnings {o : Options} {source : String} {e : Entity}
    (he : e ∈ (readSource o.fileType (Text.ofString source)).entities) {err : SortError}
    (h : (Sorter.ofLanguage o.language).sortEntity o e = .error err) :
    Notice.unsorted err ∈ (processWith o source).warnings := by
  have hnotice := unsorted_mem_sortEntities he h
  have hsome : (readSource o.fileType (Text.ofString source)).entities.isEmpty = false :=
    List.isEmpty_eq_false_iff.mpr (List.ne_nil_of_mem he)
  have hall : (readSource o.fileType (Text.ofString source)).entities.all (·.members.isEmpty) = false :=
    List.all_eq_false.mpr ⟨e, he, by simp [members_of_sortEntity_error h]⟩
  simp only [processWith, hsome, hall, Bool.false_eq_true, if_false]
  split <;> simp [hnotice]

/-! ## Runs -/

/-- The output of a run over entities with different keys is the source with the text of each entity in
its place. While no option asks for a layout, or where no names change at all, that of an entity that
does not move is as it was, whatever happens to the others. A run warns of every entity that cannot be
sorted. -/
theorem processWith_leaves_unmoved (o : Options) (hyaml : o.fileType.language ≠ .yaml)
    (hending : o.lineEnding = .auto) (source out : String)
    (hkeys : ((readSource o.fileType (Text.ofString source)).entities.map Entity.key).Nodup)
    (h : (processWith o source).processedText = some out) :
    let es := (readSource o.fileType (Text.ofString source)).entities
    out.toList = overwrite source.toList 0 ((located es).map fun x => (x.2, placedText o es x.1)) ∧
      (o.asksForLayout = false ∨ hasChanges es (sortEntities o es).1 = false →
        ∀ e ∈ es, Unmoved o e → placedText o es e = e.sourceText) ∧
      ∀ e ∈ es, ∀ err, (Sorter.ofLanguage o.language).sortEntity o e = .error err →
        Notice.unsorted err ∈ (processWith o source).warnings := by
  intro es
  exact ⟨processWith_places hyaml hkeys h,
    fun hlayout e he hunmoved => placedText_of_unmoved hyaml hending he hunmoved hlayout,
    fun e he err herr => unsorted_mem_warnings he herr⟩

/-- Two interfaces of which the second one is in order, with wide gaps after its colons. -/
def wideGaps : String := "interface A \x7b\n  b: 1;\n  a: 2;\n\x7d\ninterface B \x7b\n  c:  3;\n  d:  4;\n\x7d\n"

/-- Options that ask for narrow gaps after the colons. -/
def narrowGaps : Options := { propertySpacing := some .compact }

/-- What two runs make of the two interfaces: the second one is in order under both option sets, and with
narrow gaps asked for its own text does not occur in the output any more. -/
theorem wideGaps_runs :
    ((readSource .typescript (Text.ofString wideGaps)).entities.map Entity.key).Nodup ∧
    (processWith {} wideGaps).processedText =
      some "interface A \x7b\n  a: 2;\n  b: 1;\n\x7d\ninterface B \x7b\n  c:  3;\n  d:  4;\n\x7d\n" ∧
    (processWith narrowGaps wideGaps).processedText =
      some "interface A \x7b\n  a: 2;\n  b: 1;\n\x7d\ninterface B \x7b\n  c: 3;\n  d: 4;\n\x7d\n" ∧
    ∃ e ∈ (readSource .typescript (Text.ofString wideGaps)).entities, e.name = "B" ∧
      e.sourceText = "interface B \x7b\n  c:  3;\n  d:  4;\n\x7d" ∧
      reordered (sortedTwin {} e).members = false ∧
      reordered (sortedTwin narrowGaps e).members = false ∧
      placedText narrowGaps (readSource .typescript (Text.ofString wideGaps)).entities e ≠ e.sourceText ∧
      ¬ e.sourceText.toList <:+:
        "interface A \x7b\n  a: 2;\n  b: 1;\n\x7d\ninterface B \x7b\n  c: 3;\n  d: 4;\n\x7d\n".toList := by
  decide +kernel

/-- The members of the first interface change places, and the second one stays as it is. -/
theorem processWith_leaves_unmoved_wideGaps :
    (processWith {} wideGaps).processedText =
      some "interface A \x7b\n  a: 2;\n  b: 1;\n\x7d\ninterface B \x7b\n  c:  3;\n  d:  4;\n\x7d\n" ∧
    ∃ e ∈ (readSource .typescript (Text.ofString wideGaps)).entities, e.name = "B" ∧
      placedText {} (readSource .typescript (Text.ofString wideGaps)).entities e =
        "interface B \x7b\n  c:  3;\n  d:  4;\n\x7d" := by
  obtain ⟨hkeys, h, -, e, he, hname, htext, horder, -⟩ := wideGaps_runs
  refine ⟨h, e, he, hname, ?_⟩
  rw [(processWith_leaves_unmoved {} (by decide) rfl wideGaps _ hkeys h).2.1 (.inl rfl) e he (.inl horder),
    htext]

/-- Once the members of the first interface change places, the second one is written with narrow gaps,
although it is in order: its own text does not occur in the output any more. -/
theorem processWith_lays_out_unmoved :
    narrowGaps.lineEnding = .auto ∧ narrowGaps.trailingCommas = .preserve ∧
    ((readSource .typescript (Text.ofString wideGaps)).entities.map Entity.key).Nodup ∧
    (processWith narrowGaps wideGaps).processedText =
      some "interface A \x7b\n  a: 2;\n  b: 1;\n\x7d\ninterface B \x7b\n  c: 3;\n  d: 4;\n\x7d\n" ∧
    ∃ e ∈ (readSource .typescript (Text.ofString wideGaps)).entities,
      reordered (sortedTwin narrowGaps e).members = false ∧
      placedText narrowGaps (readSource .typescript (Text.ofString wideGaps)).entities e ≠ e.sourceText ∧
      ¬ e.sourceText.toList <:+:
        "interface A \x7b\n  a: 2;\n  b: 1;\n\x7d\ninterface B \x7b\n  c: 3;\n  d: 4;\n\x7d\n".toList := by
  obtain ⟨hkeys, -, h, e, he, -, -, -, horder, hplaced, hgone⟩ := wideGaps_runs
  exact ⟨rfl, rfl, hkeys, h, e, he, horder, hplaced, hgone⟩

end MemberOrder
