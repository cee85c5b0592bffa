/-
  Where an output comes from.

  In preserving mode the output of a run is written in pieces of the source, which can be computed
  (`outputPieces`): the text between entities stays, and each entity is dealt. When no two entities
  have one key, this is what a run gives; the pieces and the separators that were cut make up the
  source, and nothing but separators is put in (`processWith_written`).
-/
import MemberOrder.Proofs.Layout.Rendering
import MemberOrder.Proofs.Layout.Splicing

namespace MemberOrder.Layout

/-- The pieces of a text from `lo` on in which spans that follow each other are written anew. -/
def textPieces (t : Text) : (lo : Nat) → List (Span × List Piece) → List Piece
  | lo, [] => [.copy lo t.size]
  | lo, (span, ps) :: rest => .copy lo span.start :: ps ++ textPieces t span.stop rest

theorem written_textPieces (t : Text) (lo : Nat) (xs : List (Span × List Piece)) :
    written t (textPieces t lo xs) =
      overwrite t.toList lo (xs.map fun x => (x.1, String.ofList (written t x.2))) := by
  induction xs generalizing lo with
  | nil =>
    have hrest : t.slice lo t.size = t.toList.drop lo := by
      rw [Text.slice_eq_take_drop, List.take_of_length_le (by simp)]
    simp [textPieces, overwrite, written, Piece.text, hrest]
  | cons x rest ih =>
    rw [textPieces, List.map_cons, overwrite, written_append, ih, String.toList_ofList]
    simp [written, Piece.text, Text.slice_eq_take_drop]

/-- What a list of pieces has to satisfy to be the source from `a` up to `b`, but for separators. -/
def Rewrites (t : Text) (a b : Nat) (ps : List Piece) : Prop :=
  ∃ cut, Covers a b (copies ps ++ cut) ∧ OnlySeparators (puts ps) ∧ OnlySeparators (shown t cut)

namespace Rewrites

variable {t : Text} {a b c : Nat} {ps qs : List Piece}

theorem one (t : Text) {a b : Nat} (h : a ≤ b) : Rewrites t a b [.copy a b] :=
  ⟨[], .one h, onlySeparators_nil, onlySeparators_nil⟩

theorem append (h : Rewrites t a b ps) (h' : Rewrites t b c qs) : Rewrites t a c (ps ++ qs) := by
  obtain ⟨cut, hcovers, hputs, hcut⟩ := h
  obtain ⟨cut', hcovers', hputs', hcut'⟩ := h'
  refine ⟨cut ++ cut', (hcovers.append hcovers').perm ?_, ?_, ?_⟩
  · rw [copies_append, List.append_assoc, List.append_assoc]
    exact List.Perm.append_left _ (List.perm_append_comm_assoc _ _ _)
  · rw [puts_append]
    exact hputs.append hputs'
  · rw [shown_append]
    exact hcut.append hcut'

end Rewrites

end MemberOrder.Layout

namespace MemberOrder

open Layout

/-- The pieces of the output of a run over a text. -/
def outputPieces (o : Options) (t : Text) : List Piece :=
  let es := (readSource o.fileType t).entities
  if hasChanges es (sortEntities o es).1 then
    textPieces t 0 ((located es).map fun x => (x.2, entityPieces o t (sortedTwin o x.1)))
  else [.copy 0 t.size]

/-- Among entities with different keys each is its own twin. -/
theorem twin?_of_distinct {o : Options} {es : List Entity} (h : (es.map Entity.key).Nodup) {e : Entity}
    (he : e ∈ es) : twin? (sortEntities o es).1 e.key = some (sortedTwin o e) := by
  rw [sortEntities_eq_map, twin?_map_sortedTwin, twin?_of_mem he]
  obtain ⟨before, after, rfl⟩ := List.append_of_mem he
  rw [List.map_append, List.map_cons] at h
  have hkeys : ∀ e' ∈ after, e'.key ≠ e.key := by
    intro e' he' heq
    refine (List.nodup_cons.mp (List.nodup_append.mp h).2.1).1 ?_
    rw [← heq]
    exact List.mem_map_of_mem he'
  rw [(lastNamesake_eq_self_iff fun e' he' heq => hkeys e' he' (by rw [heq])).mpr hkeys]
  rfl

/-- A run gives back the source or writes the sorted entities over it. -/
theorem processedText_cases {o : Options} {source out : String}
    (h : (processWith o source).processedText = some out) :
    let es := (readSource o.fileType (Text.ofString source)).entities
    hasChanges es (sortEntities o es).1 = true ∧ out = writeBack o source es (sortEntities o es).1 ∨
      hasChanges es (sortEntities o es).1 = false ∧ out = source := by
  intro es
  cases hchanges : hasChanges es (sortEntities o es).1 with
  | true =>
    rw [processedText_of_hasChanges rfl hchanges, Option.some.injEq] at h
    exact Or.inl ⟨rfl, h.symm⟩
  | false =>
    refine Or.inr ⟨rfl, ?_⟩
    have hchanges : hasChanges (readSource o.fileType (Text.ofString source)).entities
      (sortEntities o (readSource o.fileType (Text.ofString source)).entities).1 = false := hchanges
    simp only [processWith, hchanges, Bool.false_eq_true, if_false] at h
    -- whatever else a run finds, it gives back the source or nothing
    repeat' split at h
    all_goals
      cases h
    all_goals
      rfl

section Written

variable {o : Options} {t : Text}

/-- A sorted entity of a source is written in its pieces. -/
theorem writeEntity_sortedTwin (hyaml : o.fileType.language ≠ .yaml) (hlayout : o.asksForLayout = false)
    (hending : o.lineEnding = .auto) {e : Entity} {i j : Nat}
    (hlaid : e.LaidOut (SeparatorStands t) t i j) (hj : j ≤ t.size) :
    writeEntity o (sortedTwin o e) =
      .ok (String.ofList (written t (entityPieces o t (sortedTwin o e)))) ∧
    Rewrites t i j (entityPieces o t (sortedTwin o e)) := by
  obtain ⟨hwrite, span, body, cut, hspan, -, hdeals, hcovers⟩ := writeBlock_deals (sited_stands t)
    hlaid hj hlayout hending (sortedTwin_rearranged o e)
  rw [← sortedTwin_eq] at hwrite hdeals hcovers
  rw [writeEntity_eq_writeBlock hyaml]
  obtain ⟨rfl, rfl⟩ := hlaid.bounds_eq hspan
  obtain ⟨hputs, hcut⟩ := hdeals.onlySeparators
  exact ⟨hwrite, cut, hcovers, hputs, hcut⟩

/-- The pieces of a text with its entities sorted make up the text, but for separators. -/
theorem textPieces_rewrites (hyaml : o.fileType.language ≠ .yaml) (hlayout : o.asksForLayout = false)
    (hending : o.lineEnding = .auto) {es : List Entity} {a b : Nat}
    (h : Chain (Entity.LaidOut (SeparatorStands t) t) a b es) (hb : b = t.size) :
    Rewrites t a t.size (textPieces t a
      ((located es).map fun x => (x.2, entityPieces o t (sortedTwin o x.1)))) := by
  induction h with
  | nil h =>
    rename_i a b
    rw [← hb]
    simpa [located, textPieces, ← hb] using Rewrites.one t h
  | cons ha he hrest ih =>
    rename_i a i j b e rest
    obtain ⟨span, hspan, rfl, rfl⟩ := he.span_eq
    have hj : span.stop ≤ t.size := by
      rw [← hb]
      exact hrest.le fun _ _ _ he => he.le
    obtain ⟨-, hentity⟩ := writeEntity_sortedTwin hyaml hlayout hending he hj
    simp only [located, List.filterMap_cons, hspan, Option.map_some, List.map_cons, textPieces]
    exact ((Rewrites.one t ha).append hentity).append (ih hb)

end Written

/-- The output of a run in preserving mode over entities with different keys is written in its pieces,
and these make up the source, but for separators. -/
theorem processWith_written {o : Options} (hyaml : o.fileType.language ≠ .yaml)
    (hlayout : o.asksForLayout = false) (hending : o.lineEnding = .auto) {source out : String}
    (hkeys : ((readSource o.fileType (Text.ofString source)).entities.map Entity.key).Nodup)
    (h : (processWith o source).processedText = some out) :
    out.toList = written (Text.ofString source) (outputPieces o (Text.ofString source)) ∧
      Rewrites (Text.ofString source) 0 (Text.ofString source).size
        (outputPieces o (Text.ofString source)) := by
  have hchain := readSource_chain hyaml (Text.ofString source)
  have htext : (Text.ofString source).toList = source.toList := rfl
  unfold outputPieces
  simp only
  rcases processedText_cases h with ⟨hchanges, rfl⟩ | ⟨hchanges, rfl⟩
  · rw [if_pos hchanges]
    refine ⟨?_, textPieces_rewrites hyaml hlayout hending hchain rfl⟩
    rw [written_textPieces, writeBack, String.toList_ofList, List.map_map, htext,
      splice_eq_overwrite (sortedTwin o) (by
        simpa [Text.ofString] using located_chain hchain) fun e he => twin?_of_distinct hkeys he]
    congr 1
    refine List.map_congr_left fun x hx => ?_
    obtain ⟨e, he, hspan⟩ := List.mem_filterMap.mp hx
    obtain ⟨span, hspan, rfl⟩ := Option.map_eq_some_iff.mp hspan
    obtain ⟨i, j, hlaid, -, hj⟩ := hchain.of_mem (fun _ _ _ he => he.le) he
    simp only [Function.comp, replacement, (writeEntity_sortedTwin hyaml hlayout hending hlaid hj).1]
  · rw [if_neg (by simp [hchanges])]
    refine ⟨?_, .one _ (Nat.zero_le _)⟩
    simp [written, Piece.text, Text.slice_full, htext]

end MemberOrder
