/-
  Entities written in preserving mode.

  An entity that was read from a source and whose members are rearranged in any way is written by
  dealing them: its gaps, header and footer stay, its units are there once each, and only separators
  are cut and put in (`writeEntity_deals`).
-/
import MemberOrder.Proofs.Layout.Rendering
import MemberOrder.Proofs.Placement.Reading

namespace MemberOrder

open Layout

/-- An entity of a script, a style sheet or a JSON document, its members rearranged at any depth, is
written with its gaps, header and footer unchanged and in source order and with the units of its
members in their new order, once each, of which only the separator and a body out of order change. -/
theorem writeEntity_deals (o : Options)
    (hlanguage : o.language = .typescript ∨ o.language = .css ∨ o.language = .json)
    (hlayout : o.asksForLayout = false) (hending : o.lineEnding = .auto) (t : Text) (e : Entity)
    (he : e ∈ (readSource o.fileType t).entities) (ms' : List Member)
    (h : Rearranged e.members ms') :
    ∃ span body ps cut, e.span = some span ∧ e.body = some body ∧
      writeEntity o { e with members := ms' } = .ok (String.ofList (written t ps)) ∧
      DealsBlock t (OwnSite t) span body e.members ms' ps cut ∧
      Covers span.start span.stop (copies ps ++ cut) ∧
      (written t ps ++ shown t cut).Perm (e.sourceText.toList ++ puts ps) ∧
      (written t ps).length + (shown t cut).length = e.sourceText.length + (puts ps).length := by
  have hyaml : o.fileType.language ≠ .yaml := by
    intro heq
    rcases hlanguage with h | h | h <;> rw [Options.language, heq] at h <;> cases h
  have hgo : o.fileType.language ≠ .go := by
    intro heq
    rcases hlanguage with h | h | h <;> rw [Options.language, heq] at h <;> cases h
  obtain ⟨i, j, hlaid, -, hj⟩ := (readSource_chain_placed hyaml hgo t).of_mem
    (fun _ _ _ he => he.le) he
  obtain ⟨hwrite, span, body, cut, hspan, hbody, hdeals, hcovers⟩ :=
    writeBlock_deals (sited_placed t) (hlaid.imp fun _ => And.left) hj hlayout hending h
  have htext : e.sourceText.toList = t.slice span.start span.stop := by
    obtain ⟨rfl, rfl⟩ := hlaid.bounds_eq hspan
    rw [hlaid.text]
    simp [Text.cut]
  have hperm := hcovers.written_perm (t := t)
  rw [← htext] at hperm
  refine ⟨span, body, _, cut, hspan, hbody, ?_, hdeals, hcovers, hperm, ?_⟩
  · rw [writeEntity_eq_writeBlock hyaml]
    exact hwrite
  · have := hperm.length_eq
    simpa [String.length_toList] using this

/-- A rule with its declarations turned around: the semicolon after the first one is put after the
other. -/
theorem writeEntity_deals_reversed :
    ((readSource .css (Text.ofString "a\x7bc:1;b:2\x7d")).entities.map fun e =>
      (writeEntity { fileType := .css } { e with members := e.members.reverse }).toOption) =
      [some "a\x7bb:2;c:1\x7d"] ∧
    ∃ e ∈ (readSource .css (Text.ofString "a\x7bc:1;b:2\x7d")).entities, ∃ span body ps cut,
      DealsBlock (Text.ofString "a\x7bc:1;b:2\x7d") (OwnSite (Text.ofString "a\x7bc:1;b:2\x7d")) span
        body e.members e.members.reverse ps cut := by
  refine ⟨by decide +kernel, ?_⟩
  have hlength : (readSource .css (Text.ofString "a\x7bc:1;b:2\x7d")).entities.length = 1 := by
    decide +kernel
  obtain ⟨e, he⟩ := List.length_eq_one_iff.mp hlength
  have hmem : e ∈ (readSource .css (Text.ofString "a\x7bc:1;b:2\x7d")).entities := by simp [he]
  obtain ⟨span, body, ps, cut, -, -, -, hdeals, -⟩ := writeEntity_deals { fileType := .css }
    (by decide) (by decide) rfl _ e hmem _ (Rearranged.of_perm (List.reverse_perm _).symm)
  exact ⟨e, hmem, span, body, ps, cut, hdeals⟩

end MemberOrder

/-!
## Separators that are filled in

A dealt body gives each of its slots a separator (`FillsBlock`, which says what is written at the place
of a member's own one). While the option on trailing commas leaves them alone, a member that stays in
its slot keeps its separator, unless it has none, is not the last of its list, and another member that
is not the last has one: then it gets the most frequent one (`slotSeparator_fills`). By induction on the
nesting of members this holds of every list that is dealt (`writeEntity_fills`), so it happens too in a
list in which nothing moves, when a list inside it is out of order.
-/

namespace MemberOrder.Layout

/-! ## The separator of a slot -/

/-- What a member with the record `i` gets in a slot of a list, given in source order: in its own slot its
own separator exactly if separators belong to slots, it has one, it is the last, or none has one but the
last. One that has none gets the common one in front of others. -/
structure Fills (stays : Bool) (usual : String) (ms : List Member) (slot : Nat) (i : MemberInfo)
    (new : String) : Prop where
  inPlace : (ms.map Member.info)[slot]? = some i → (new = i.separator ↔
    stays = true ∨ i.separator ≠ "" ∨ slot + 1 = ms.length ∨ ∀ m ∈ ms.dropLast, m.info.separator = "")
  filled : stays = false → i.separator = "" → slot + 1 < ms.length →
    new = commonSeparator (ms.map (·.info.separator)) usual

/-- Several members have a common separator when one of them that is not the last has one. -/
theorem commonSeparator_eq_empty {separators : List String} {usual : String}
    (h : 2 ≤ separators.length) :
    commonSeparator separators usual = "" ↔ ∀ x ∈ separators.dropLast, x = "" := by
  rw [commonSeparator, if_neg (by omega)]
  constructor
  · intro hcommon x hx
    refine Classical.byContradiction fun hne => ?_
    have hmem : x ∈ separators.dropLast.filter (!·.isEmpty) :=
      List.mem_filter.mpr ⟨hx, by simpa using hne⟩
    have := (List.mem_filter.mp (mostFrequent_mem (List.ne_nil_of_mem hmem))).2
    rw [hcommon] at this
    cases this
  · intro hnone
    have hnil : separators.dropLast.filter (!·.isEmpty) = [] :=
      List.filter_eq_nil_iff.mpr fun x hx => by simp [hnone x hx]
    rw [hnil]
    rfl

variable {s : Setting} {ms : List Member} {slot : Nat} {i : MemberInfo}

/-- The separator of a slot, where the option on trailing commas leaves the last one alone. -/
theorem slotSeparator_of_preserve (h : s.options.trailingCommas = .preserve) (own : String)
    (separators : List String) : slotSeparator s own slot separators =
      if s.rules.separatorsStay then separators.getD slot ""
      else if slot + 1 == separators.length then
        if separators.getLast?.getD "" == "" then "" else own
      else if own.isEmpty then commonSeparator separators (s.rules.separator s.kind) else own := by
  unfold slotSeparator
  have hfinal : ∀ x comma, finalSeparator s.options x comma = x := fun x comma => by
    rw [finalSeparator, h]
  simp only [hfinal, ite_self]

/-- Separators are kept and filled in slot by slot. -/
theorem slotSeparator_fills (h : s.options.trailingCommas = .preserve) (hslot : slot < ms.length) :
    Fills s.rules.separatorsStay (s.rules.separator s.kind) ms slot i
      (slotSeparator s i.separator slot (ms.map (·.info.separator))) := by
  rw [slotSeparator_of_preserve h]
  constructor
  · intro hplace
    rw [List.getElem?_map, Option.map_eq_some_iff] at hplace
    obtain ⟨m, hm, rfl⟩ := hplace
    cases hstays : s.rules.separatorsStay with
    | true =>
      simp [List.getD_eq_getElem?_getD, hm]
    | false =>
      by_cases hlast : slot + 1 = ms.length
      · -- the last member keeps its own, as that is the last one
        have hsep : (ms.map (·.info.separator)).getLast?.getD "" = m.info.separator := by
          rw [List.getLast?_eq_getElem?, List.length_map, ← hlast, Nat.add_sub_cancel,
            List.getElem?_map, hm]
          rfl
        simp only [Bool.false_eq_true, if_false, List.length_map, hlast, beq_self_eq_true, if_true, hsep,
          true_or, or_true, iff_true]
        split
        · exact (eq_of_beq ‹_›).symm
        · rfl
      · have hlast' : (slot + 1 == (ms.map (·.info.separator)).length) = false := by simpa using hlast
        simp only [Bool.false_eq_true, if_false, hlast', hlast, false_or]
        by_cases hnone : m.info.separator = ""
        · have hcommon := @commonSeparator_eq_empty (ms.map (·.info.separator))
            (s.rules.separator s.kind) (by rw [List.length_map]; omega)
          rw [hnone, if_pos (show "".isEmpty = true from rfl), hcommon, ← List.map_dropLast,
            List.forall_mem_map]
          simp
        · have hsome : m.info.separator.isEmpty = false := by simpa using hnone
          simp [hsome, hnone]
  · intro hstays hnone hbefore
    have hlast : (slot + 1 == (ms.map (·.info.separator)).length) = false := by
      simp only [List.length_map, beq_eq_false_iff_ne]
      omega
    rw [hstays, hlast, hnone]
    rfl

/-! ## Dealt pieces with their separators -/

/-- The pieces of a unit around those of its member, with `new` where its own separator stood. -/
inductive FillsUnit (t : Text) (i : MemberInfo) (inner : List Piece) (new : String) :
    List Piece → Prop
  | fill {span unit : Span} {place : Nat} (hspan : i.span = some span) (hunit : i.unit = some unit)
      (hplace : span.stop ≤ place) (hstop : place + i.separator.length ≤ unit.stop)
      (hcut : t.slice place (place + i.separator.length) = i.separator.toList) :
      FillsUnit t i inner new (.copy unit.start span.start :: inner ++
        [.copy span.stop place, .put new, .copy (place + i.separator.length) unit.stop])

mutual

/-- The pieces of a block from members to their rearrangement: the block as it is, or its gaps filled
with units whose separators obey a rule for the slots of the list. -/
inductive FillsBlock (t : Text) (rule : List Member → Nat → MemberInfo → String → Prop) :
    (span body : Span) → (ms ms' : List Member) → List Piece → Prop
  | kept (span body : Span) (ms : List Member) :
      FillsBlock t rule span body ms ms [.copy span.start span.stop]
  | dealt {span body : Span} {ms mid ms' : List Member} {units : List (List Piece)}
      (hperm : ms.Perm mid) (hunits : FillsUnits t rule ms 0 mid ms' units) :
      FillsBlock t rule span body ms ms' (.copy span.start body.start ::
        fill (gapPieces body.stop body.start ms) units ++ [.copy body.stop span.stop])

/-- The pieces of the units of members from a slot of their list on. -/
inductive FillsUnits (t : Text) (rule : List Member → Nat → MemberInfo → String → Prop) :
    (list : List Member) → (slot : Nat) → (ms ms' : List Member) → List (List Piece) → Prop
  | nil (list : List Member) (slot : Nat) : FillsUnits t rule list slot [] [] []
  | cons {list : List Member} {slot : Nat} {m m' : Member} {rest rest' : List Member}
      {inner unit : List Piece} {units : List (List Piece)} {new : String}
      (hm : FillsMember t rule m m' inner) (hunit : FillsUnit t m.info inner new unit)
      (hrule : rule list slot m.info new)
      (hrest : FillsUnits t rule list (slot + 1) rest rest' units) :
      FillsUnits t rule list slot (m :: rest) (m' :: rest') (unit :: units)

/-- The pieces of a member without its comments and its separator. -/
inductive FillsMember (t : Text) (rule : List Member → Nat → MemberInfo → String → Prop) :
    (m m' : Member) → List Piece → Prop
  | leaf {i : MemberInfo} {span : Span} (hspan : i.span = some span) :
      FillsMember t rule (.leaf i) (.leaf i) [.copy span.start span.stop]
  | group {i : MemberInfo} {span body : Span} {children children' : List Member} {inner : List Piece}
      (hspan : i.span = some span) (hbody : i.body = some body)
      (h : FillsBlock t rule span body children children' inner) :
      FillsMember t rule (.group i children) (.group i children') inner

end

section Pieces

variable {P : MemberInfo → Prop} {t : Text} {site : MemberInfo → Nat → Prop}
  {rule : List Member → Nat → MemberInfo → String → Prop}

theorem unitPieces_fills (hsited : Sited t P site) {span unit : Span} (hP : P i)
    (hplaced : Placed t i span unit) (inner : List Piece) (new : String) :
    FillsUnit t i inner new (unitPieces t i inner new) := by
  obtain ⟨place, -, hfound⟩ := hsited.found hP hplaced
  have hpieces : unitPieces t i inner new = .copy unit.start span.start :: inner ++
      [.copy span.stop place, .put new, .copy (place + i.separator.length) unit.stop] := by
    rcases hfound.search with ⟨hnone, rfl⟩ | ⟨hsome, hsearch⟩
    · simp [unitPieces, hplaced.unit_eq, hplaced.span_eq, hnone]
    · have hsome' : i.separator.isEmpty = false := by simpa using hsome
      simp [unitPieces, hplaced.unit_eq, hplaced.span_eq, hsome', hsearch,
        Nat.add_sub_cancel' hfound.after]
  rw [hpieces]
  exact .fill hplaced.span_eq hplaced.unit_eq hfound.after hfound.inside hfound.text

/-- A block of rearranged members is filled, once the units of the members are. -/
theorem blockPieces_fills {span body : Span} {mid ms' : List Member}
    (hlaid : LaidFrom P t body.stop body.start ms) (hperm : ms.Perm mid) (heach : EachRearranged mid ms')
    (hunits : FillsUnits t rule ms 0 mid ms'
      (unitsPieces s t (ms.map (·.info.separator)) 0 (membersPieces s t ms'))) :
    FillsBlock t rule span body ms ms' (blockPieces s t span body (membersPieces s t ms')) := by
  have hre : Rearranged ms ms' := ⟨mid, hperm, heach⟩
  have hinfos := sourceOrder_infos hlaid hre
  have hseparators : (sourceOrder ms').map (·.info.separator) = ms.map (·.info.separator) := by
    have := congrArg (List.map MemberInfo.separator) hinfos
    rwa [List.map_map, List.map_map] at this
  simp only [blockPieces, map_fst_membersPieces, bounds_eq hlaid hre]
  split
  · rw [hseparators, gapPieces_congr _ _ hinfos]
    exact .dealt hperm hunits
  · have hsame : ms' = ms := Classical.byContradiction fun hne =>
      absurd ((reordered_iff hlaid hre).mpr hne) ‹_›
    rw [hsame]
    exact .kept span body ms

mutual

/-- The pieces of a member fill the bodies inside it. -/
theorem memberPieces_fills (hsited : Sited t P site)
    (hrule : ∀ {list : List Member} {slot : Nat} {i : MemberInfo}, slot < list.length →
      rule list slot i (slotSeparator s i.separator slot (list.map (·.info.separator))))
    {m m' : Member} (hlaid : m.LaidOut P t) (h : m.Rearranged m') :
    FillsMember t rule m m' (memberPieces s t m') := by
  match h with
  | .leaf i =>
    obtain ⟨-, span, unit, hp⟩ := hlaid
    simp only [memberPieces, hp.span_eq, Option.map_some, Option.toList_some]
    exact .leaf hp.span_eq
  | .group i hperm heach =>
    rename_i children mid children'
    obtain ⟨-, span, unit, body, hp, hbody, -, -, hlaid⟩ := hlaid
    simp only [memberPieces, hp.span_eq, hbody]
    refine .group hp.span_eq hbody (blockPieces_fills hlaid hperm heach ?_)
    exact unitsPieces_fills hsited hrule (fun m hm => (hlaid.of_mem (hperm.mem_iff.mpr hm)).1) heach
      (by rw [hperm.length_eq, Nat.zero_add])

/-- The pieces of units get the separators of their slots. -/
theorem unitsPieces_fills (hsited : Sited t P site)
    (hrule : ∀ {list : List Member} {slot : Nat} {i : MemberInfo}, slot < list.length →
      rule list slot i (slotSeparator s i.separator slot (list.map (·.info.separator))))
    {list ms ms' : List Member} (hlaid : ∀ m ∈ ms, m.LaidOut P t) (h : EachRearranged ms ms')
    {slot : Nat} (hslot : slot + ms.length = list.length) :
    FillsUnits t rule list slot ms ms'
      (unitsPieces s t (list.map (·.info.separator)) slot (membersPieces s t ms')) := by
  match h with
  | .nil => exact .nil list slot
  | .cons hm hrest =>
    rename_i m m' rest rest'
    rw [List.length_cons] at hslot
    have hself := hlaid m List.mem_cons_self
    obtain ⟨hP, span, unit, hp⟩ := hself.placed
    rw [membersPieces, unitsPieces, hm.info_eq]
    exact .cons (memberPieces_fills hsited hrule hself hm) (unitPieces_fills hsited hP hp _ _)
      (hrule (by omega))
      (unitsPieces_fills hsited hrule (fun m hm => hlaid m (List.mem_cons_of_mem _ hm)) hrest (by omega))

end

end Pieces

end MemberOrder.Layout

namespace MemberOrder

open Layout

/-- In every list that is written anew, a member that stays in its slot keeps exactly the separator that
it had, unless it has none, is not the last of its list, and another one that is not the last has one;
this holds of the members of all languages whose bodies are scanned, rearranged at any depth, and under
every option set that neither asks for a layout nor about trailing commas. -/
theorem writeEntity_fills (o : Options) (hyaml : o.fileType.language ≠ .yaml)
    (hlayout : o.asksForLayout = false) (hcommas : o.trailingCommas = .preserve) (t : Text) (e : Entity)
    (he : e ∈ (readSource o.fileType t).entities) (ms' : List Member)
    (h : Rearranged e.members ms') :
    ∃ span body ps, e.span = some span ∧ e.body = some body ∧
      writeEntity o { e with members := ms' } =
        .ok (String.ofList (withOptionsEnding o e.sourceText.toList (written t ps))) ∧
      FillsBlock t (Fills (Rules.ofFileType o.fileType).separatorsStay
        ((Rules.ofFileType o.fileType).separator e.kind)) span body e.members ms' ps := by
  obtain ⟨i, j, hlaid, -, hj⟩ := (readSource_chain hyaml t).of_mem (fun _ _ _ he => he.le) he
  obtain ⟨hwrite, span, body, cut, hspan, hbody, -⟩ := writeBlock_dealt (sited_stands t) hlaid hj hlayout h
  refine ⟨span, body, entityPieces o t { e with members := ms' }, hspan, hbody, ?_, ?_⟩
  · rw [writeEntity_eq_writeBlock hyaml]
    exact hwrite
  · obtain ⟨mid, hperm, heach⟩ := h
    obtain ⟨-, -, hmembers⟩ := hlaid.laidFrom hbody
    have hfills := fun {list : List Member} {slot : Nat} {i : MemberInfo} (hslot : slot < list.length) =>
      slotSeparator_fills (s := settingOf o e span) (i := i) hcommas hslot
    simp only [entityPieces, hspan, hbody]
    exact blockPieces_fills hmembers hperm heach (unitsPieces_fills (sited_stands t) hfills
      (fun m hm => (hmembers.of_mem (hperm.mem_iff.mpr hm)).1) heach
      (by rw [hperm.length_eq, Nat.zero_add]))

/-- Members of which the one in the middle has a separator. -/
def semicolonInMiddle : String := "interface A \x7b\n a: x\n b: y;\n c: z\n\x7d"

/-- Turned around, the one in the middle keeps it, and the one that gets in front of it gets one too. -/
theorem writeEntity_fills_turned :
    ((readSource .typescript (Text.ofString semicolonInMiddle)).entities.map fun e =>
      (writeEntity {} { e with members := e.members.reverse }).toOption) =
      [some "interface A \x7b\n c: z;\n b: y;\n a: x\n\x7d"] ∧
    ∃ e ∈ (readSource .typescript (Text.ofString semicolonInMiddle)).entities, ∃ span body ps,
      FillsBlock (Text.ofString semicolonInMiddle) (Fills false ((Rules.ofFileType .typescript).separator e.kind))
        span body e.members e.members.reverse ps := by
  obtain ⟨hwritten, hlength⟩ :
      ((readSource .typescript (Text.ofString semicolonInMiddle)).entities.map fun e =>
        (writeEntity {} { e with members := e.members.reverse }).toOption) =
        [some "interface A \x7b\n c: z;\n b: y;\n a: x\n\x7d"] ∧
      (readSource .typescript (Text.ofString semicolonInMiddle)).entities.length = 1 := by
    decide +kernel
  refine ⟨hwritten, ?_⟩
  obtain ⟨e, he⟩ := List.length_eq_one_iff.mp hlength
  have hmem : e ∈ (readSource .typescript (Text.ofString semicolonInMiddle)).entities := by simp [he]
  obtain ⟨span, body, ps, -, -, -, hfills⟩ := writeEntity_fills {} (by decide) rfl rfl _ e hmem _
    (Rearranged.of_perm (List.reverse_perm _).symm)
  exact ⟨e, hmem, span, body, ps, hfills⟩

/-- Members of which the first has no separator and stays where it is. -/
def bareFirst : String := "interface A \x7b\n a: x\n c: y;\n b: z\n\x7d"

/-- The members of a script with their separators. -/
def separatorsOf (source : String) : List (String × String) :=
  (readSource .typescript (Text.ofString source)).entities.flatMap fun e =>
    e.members.map fun m => (m.name, m.info.separator)

/-- The first member gets the separator of the second one, although it does not move. -/
theorem processWith_fills_unmoved :
    (processWith {} bareFirst).processedText = some "interface A \x7b\n a: x;\n b: z;\n c: y\n\x7d" ∧
    separatorsOf bareFirst = [("a", ""), ("c", ";"), ("b", "")] ∧
    separatorsOf "interface A \x7b\n a: x;\n b: z;\n c: y\n\x7d" = [("a", ";"), ("b", ";"), ("c", "")] := by
  decide +kernel

end MemberOrder
