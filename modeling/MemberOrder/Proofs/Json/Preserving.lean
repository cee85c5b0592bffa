/-
  Sorting a document preserves it.

  A run over a document gives back the source or writes the sorted root over its place. Either way the
  output is a document for an entry that agrees with the one before, with a comma after the last items
  only where one is asked for, and it is read without errors. Without natural sorting and with arrays
  left alone, a second run finds the output sorted (`processWith_preserves_document`).
-/
import MemberOrder.Proofs.Json.Sorting
import MemberOrder.Proofs.Json.Writing
import MemberOrder.Proofs.Layout.Provenance

namespace MemberOrder

open Layout

/-! ## Runs over one entity -/

/-- A run that finds members and no changes says so and gives back the source. -/
theorem processWith_unchanged {o : Options} {source : String} {es : List Entity}
    (hes : (readSource o.fileType (Text.ofString source)).entities = es)
    (hmembers : es.all (·.members.isEmpty) = false)
    (hchanges : hasChanges es (sortEntities o es).1 = false) :
    (processWith o source).success = true ∧ (processWith o source).processedText = some source ∧
      Notice.alreadySorted ∈ (processWith o source).warnings := by
  have hne : es.isEmpty = false := by
    cases es with
    | nil => cases hmembers
    | cons e rest => rfl
  simp only [processWith, hes, hne, hmembers, hchanges, Bool.false_eq_true, if_false]
  exact ⟨trivial, trivial, List.mem_append_right _ List.mem_cons_self⟩

/-- One sorted entity is written over its span. -/
theorem writeBack_one {o : Options} {source text : String} {e : Entity} {span : Span}
    (hspan : e.span = some span) (hstop : span.stop ≤ source.toList.length)
    (hwrite : writeEntity o (sortedTwin o e) = .ok text) :
    (writeBack o source [e] (sortEntities o [e]).1).toList =
      source.toList.take span.start ++ (text.toList ++ source.toList.drop span.stop) := by
  have hbackwards : backwards [e] = [(e, span)] := by
    simp only [backwards, List.filterMap_cons, hspan, Option.map_some, List.filterMap_nil]
    rfl
  have hkeys : ([e].map Entity.key).Nodup := by simp
  have htwin : twin? (sortEntities o [e]).1 e.key = some (sortedTwin o e) :=
    twin?_of_distinct hkeys List.mem_cons_self
  rw [writeBack, String.toList_ofList, splice, hbackwards, spliceFrom, if_neg (by omega), htwin]
  simp only [hwrite, spliceFrom, List.append_assoc]

theorem sortedTwin_members_ne (o : Options) {e : Entity} (h : e.members ≠ []) :
    (sortedTwin o e).members ≠ [] := by
  intro hnil
  have hperm := (sortedTwin_rearranged o e).infos_perm
  rw [hnil] at hperm
  exact h (List.map_eq_nil_iff.mp hperm.symm.eq_nil)

namespace Json

variable {isObject trailing : Bool} {t : Text} {e : Entity} {span body : Span} {o : Options}

/-! ## The sorted root -/

theorem readSource_json (hjson : o.language = .json) (t : Text) :
    readSource o.fileType t = Json.read o.fileType t := by
  unfold readSource
  rw [show o.fileType.language = .json from hjson]

/-- Sorting a root sorts its members, if that can be done. -/
theorem ReadRoot.sortedTwin_eq (h : ReadRoot trailing isObject t e span body)
    (hjson : o.language = .json) :
    sortedTwin o e =
      match Sorter.json.sortMembers o (some (kindOf isObject, e.name)) e.members with
      | .ok ms => { e with members := ms }
      | .error _ => e := by
  have hkind : e.kind = kindOf isObject := h.kind_eq
  rw [sortedTwin, hjson, Sorter.ofLanguage, Sorter.sortEntity, hkind]
  cases Sorter.json.sortMembers o (some (kindOf isObject, e.name)) e.members <;> rfl

/-- A sorted root agrees with what it was and, when it has changed, is settled. -/
theorem ReadRoot.sortedTwin_sorts (h : ReadRoot trailing isObject t e span body)
    (hjson : o.language = .json) :
    Entry.Agrees o.preserveArrayOrder (.container [] isObject (e.members.map (Member.entry isObject)))
      (.container [] isObject ((sortedTwin o e).members.map (Member.entry isObject))) ∧
    (sortedTwin o e ≠ e → o.naturalSort = false →
      SettledRoot o isObject ((sortedTwin o e).members.map (Member.entry isObject))) := by
  rw [h.sortedTwin_eq hjson]
  split
  · rename_i ms hsorted
    obtain ⟨hagrees, hsettled⟩ := sortMembers_sorts h.members hsorted
    exact ⟨hagrees, fun _ => hsettled⟩
  · exact ⟨.refl _ _, fun hne => absurd rfl hne⟩

/-- A root that stands for settled entries and is in order is sorted to itself. -/
theorem ReadRoot.sortedTwin_self (h : ReadRoot trailing isObject t e span body)
    (hjson : o.language = .json) (hplain : o.naturalSort = false)
    (horder : rootInOrder o isObject e.members = true)
    (hsettled : SettledRoot o isObject (e.members.map (Member.entry isObject))) :
    sortedTwin o e = e := by
  rw [h.sortedTwin_eq hjson, sortMembers_self h.members hplain horder hsettled]

/-! ## Outputs -/

theorem Document.weaken {e : Entry} {cs : List Char} (h : Document false e cs) (trailing : Bool) :
    Document trailing e cs := by
  obtain ⟨a, text, b, ha, hb, htext, rfl⟩ := h
  exact ⟨a, text, b, ha, hb, htext.weaken trailing, rfl⟩

/-- What is written of a changed root is a document again. -/
theorem ReadRoot.writeBack_document {source : String}
    (h : ReadRoot false isObject (Text.ofString source) e span body) (hjson : o.language = .json)
    (hlayout : o.asksForLayout = false ∨ ∃ width, o.indentationSize = .blanks width)
    (hmembers : e.members ≠ []) :
    Document (addsComma o)
      (.container [] isObject ((sortedTwin o e).members.map (Member.entry isObject)))
      (writeBack o source [e] (sortEntities o [e]).1).toList := by
  obtain ⟨text, hwrite, hspells⟩ := h.write_spells hjson hlayout (sortedTwin_rearranged o e)
    (sortedTwin_members_ne o hmembers)
  rw [← MemberOrder.sortedTwin_eq] at hwrite
  have hsize : (Text.ofString source).size = source.toList.length := by simp [Text.ofString]
  rw [writeBack_one h.span_eq (hsize ▸ h.inside) hwrite, String.toList_ofList]
  refine ⟨_, text, _, ?_, ?_, hspells, rfl⟩
  · have hbefore := h.before
    rw [Text.slice_eq_take_drop] at hbefore
    simpa [Text.ofString] using hbefore
  · have hafter := h.after
    rwa [Text.slice_eq_take_drop, List.take_of_length_le (by simp)] at hafter

/-- A run over a document gives a text only when there are members. -/
theorem members_of_processedText {source out : String} (hjson : o.language = .json)
    (hread : Json.read o.fileType (Text.ofString source) = { entities := [e] })
    (h : (processWith o source).processedText = some out) : e.members ≠ [] := by
  intro hnil
  have hall : [e].all (·.members.isEmpty) = true := by
    rw [List.all_cons, hnil]
    rfl
  have hgo : (o.fileType == .go) = false := by
    refine beq_eq_false_iff_ne.mpr fun hgo => ?_
    rw [Options.language, hgo] at hjson
    cases hjson
  simp only [processWith, readSource_json hjson, hread, hall, hgo, List.isEmpty_cons,
    Bool.false_eq_true, if_false, if_true] at h
  cases h

/-- A run over a document whose entries are settled finds it sorted. -/
theorem Document.processWith_settled {es : List Entry} {source : String}
    (h : Document trailing (.container [] isObject es) source.toList) (hjson : o.language = .json)
    (hplain : o.naturalSort = false) (hpreserve : o.preserveArrayOrder = true) (hne : es ≠ [])
    (hsettled : SettledRoot o isObject es) :
    (processWith o source).success = true ∧ (processWith o source).processedText = some source ∧
      Notice.alreadySorted ∈ (processWith o source).warnings := by
  obtain ⟨e, span, body, hread, hroot, rfl⟩ := Document.readRoot (t := Text.ofString source) h
    o.fileType
  have hentities : (readSource o.fileType (Text.ofString source)).entities = [e] := by
    rw [readSource_json hjson, hread]
  have hmembers : [e].all (·.members.isEmpty) = false := by simpa using hne
  refine processWith_unchanged hentities hmembers ?_
  rw [sortEntities_eq_map, List.map_cons, List.map_nil,
    hroot.sortedTwin_self hjson hplain (rootInOrder_of_preserved hpreserve _ _) hsettled,
    not_hasChanges_self]

/-- A text that is returned for a document is again a document, and an entry that agrees with the one
before is read from it without errors. Processing it once more with the same options, without natural
sorting and with arrays left alone, gives it back and says that it is sorted. -/
theorem processWith_preserves_document (o : Options) (hjson : o.language = .json) (width : Int)
    (hwidth : o.indentationSize = .blanks width) (isObject : Bool) (es : List Entry)
    (source out : String) (hsource : Document false (.container [] isObject es) source.toList)
    (h : (processWith o source).processedText = some out) :
    ∃ es', (Entry.container [] isObject es).Agrees o.preserveArrayOrder (.container [] isObject es') ∧
      Document (addsComma o) (.container [] isObject es') out.toList ∧
      (∃ e, Json.read o.fileType (Text.ofString out) = { entities := [e] } ∧
        e.kind = kindOf isObject ∧ e.members.map (Member.entry isObject) = es') ∧
      (o.naturalSort = false → o.preserveArrayOrder = true →
        (processWith o out).success = true ∧ (processWith o out).processedText = some out ∧
          Notice.alreadySorted ∈ (processWith o out).warnings) := by
  obtain ⟨e, span, body, hread, hroot, rfl⟩ := Document.readRoot (t := Text.ofString source) hsource
    o.fileType
  have hentities : (readSource o.fileType (Text.ofString source)).entities = [e] := by
    rw [readSource_json hjson, hread]
  have hmembers := members_of_processedText hjson hread h
  have hcases := processedText_cases h
  rw [hentities] at hcases
  rcases hcases with ⟨hchanges, rfl⟩ | ⟨hchanges, rfl⟩
  · have hdocument := hroot.writeBack_document hjson (Or.inr ⟨width, hwidth⟩) hmembers
    obtain ⟨hagrees, hsettled⟩ := hroot.sortedTwin_sorts hjson
    obtain ⟨e', _, _, hread', hroot', hentries⟩ := Document.readRoot
      (t := Text.ofString (writeBack o source [e] (sortEntities o [e]).1)) hdocument o.fileType
    refine ⟨_, hagrees, hdocument, ⟨e', hread', hroot'.kind_eq, hentries⟩, fun hplain hpreserve => ?_⟩
    have hmoved : sortedTwin o e ≠ e := fun hsame => by
      rw [sortEntities_eq_map, List.map_cons, List.map_nil, hsame, not_hasChanges_self] at hchanges
      cases hchanges
    exact hdocument.processWith_settled hjson hplain hpreserve
      (by simpa using sortedTwin_members_ne o hmembers) (hsettled hmoved hplain)
  · have hall : [e].all (·.members.isEmpty) = false := by simpa using hmembers
    exact ⟨_, .refl _ _, hsource.weaken _, ⟨e, hread, hroot.kind_eq, rfl⟩, fun _ _ =>
      processWith_unchanged hentities hall hchanges⟩

/-- An object in an object, the keys of both backwards. -/
def keysBackwards : String := "\x7b\"b\":1,\"a\":\x7b\"d\":null,\"c\":[]\x7d\x7d"

/-- What is inside the root of that document. -/
def keysBackwardsEntries : List Entry :=
  [.scalar ['b'] ['1'],
    .container ['a'] true [.scalar ['d'] ['n', 'u', 'l', 'l'], .container ['c'] false []]]

theorem document_keysBackwards :
    Document false (.container [] true keysBackwardsEntries) keysBackwards.toList := by
  have hlabel : ∀ c ∈ ['a', 'b', 'c', 'd'], Label true [c] ['"', c, '"', ':'] := by
    intro c hc
    have hplain : ∀ c ∈ ['a', 'b', 'c', 'd'], 32 ≤ c.toNat ∧ c ≠ '"' ∧ c ≠ '\\' := by decide
    obtain ⟨hcontrol, hquote, hslash⟩ := hplain c hc
    exact .member (.plain hcontrol hquote hslash .nil) blank_nil blank_nil
  have hnumber : Scalar ['1'] := by
    have hsign : ([] : List Char) ∈ [[], ['-']] := by decide
    have hdigit : '1' ∈ leadingDigits := by decide
    exact .number hsign (.leading hdigit fun _ h => absurd h List.not_mem_nil) .none .none
  have hword : Scalar ['n', 'u', 'l', 'l'] := .word (by decide)
  have hpair : ∀ {inObject : Bool} {key label x y : List Char} {e e' : Entry},
      Label inObject key label → Spells false true e x → Spells false true e' y →
      Spells false inObject (.container key true [e, e'])
        (label ++ ('{' :: (x ++ ',' :: y) ++ ['}'])) := by
    intro inObject key label x y e e' hkey hx hy
    have hrow : Row false [x, y] (x ++ ',' :: y) := by
      have hlast : Row false [y] ([] ++ (y ++ [])) := .last blank_nil blank_nil
      rw [List.append_nil, List.nil_append] at hlast
      exact .cons blank_nil blank_nil (Or.inr (List.cons_ne_nil _ _)) hlast
    refine .container true [(e, x), (e', y)] hkey (fun item hitem => ?_) hrow
    rcases List.mem_cons.mp hitem with rfl | hitem
    · exact hx
    · rw [List.mem_singleton.mp hitem]
      exact hy
  have hinner := hpair (hlabel 'a' (by decide)) (.scalar (hlabel 'd' (by decide)) hword)
    (.container false [] (hlabel 'c' (by decide)) (fun _ h => absurd h List.not_mem_nil)
      (.nil blank_nil))
  have houter := hpair .element (.scalar (hlabel 'b' (by decide)) hnumber) hinner
  refine ⟨[], _, [], blank_nil, blank_nil, houter, ?_⟩
  decide +kernel

/-- What a run makes of it that adds commas. -/
def keysSorted : String := "\x7b\"a\":\x7b\"c\":[],\"d\":null,\x7d,\"b\":1,\x7d"

/-- The keys are sorted at both depths, commas are added, and a second run changes nothing. -/
theorem processWith_preserves_keysBackwards :
    let o : Options := { fileType := .json, trailingCommas := .add }
    Document false (.container [] true keysBackwardsEntries) keysBackwards.toList ∧
      (processWith o keysBackwards).processedText = some keysSorted ∧
      (∃ es', (Entry.container [] true keysBackwardsEntries).Agrees true (.container [] true es') ∧
        Document true (.container [] true es') keysSorted.toList) ∧
      (processWith o keysSorted).processedText = some keysSorted ∧
      Notice.alreadySorted ∈ (processWith o keysSorted).warnings := by
  intro o
  have htext : (processWith o keysBackwards).processedText = some keysSorted := by
    decide +kernel
  obtain ⟨es', hagrees, hdocument, -, hagain⟩ := processWith_preserves_document o rfl 4 rfl true
    keysBackwardsEntries keysBackwards keysSorted document_keysBackwards htext
  obtain ⟨-, hsame, hsorted⟩ := hagain rfl rfl
  exact ⟨document_keysBackwards, htext, ⟨es', hagrees, hdocument⟩, hsame, hsorted⟩

end Json

end MemberOrder
