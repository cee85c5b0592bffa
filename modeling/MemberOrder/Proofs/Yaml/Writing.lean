/-
  Members that stand for entries are written as entries.

  The gaps between the units of members that stand for the entries of a block are what stands between the
  entries, and an entry has no separator. So members that are turned are dealt into their places as a text
  that reads as a block of the same entries (`EachStands.dealt_reads`). Such a text may replace a block
  inside an entry, so this holds at any depth (`Stands.writes`).

  Nothing is said here of how a loader reads an entry; that it reads as one where it stands is part of what
  it means for a member to stand for it.
-/
import Mathlib.Data.List.Perm.Basic
import MemberOrder.Proofs.Json.Recording
import MemberOrder.Proofs.Layout.Rendering
import MemberOrder.Proofs.Yaml.Standing

namespace MemberOrder.Yaml

open Layout

/-! ## Keys that fit -/

theorem Fits.of_subperm {load : DataLoader} {tag : Option Tag} {areItems : Bool} {keys keys' : List Data}
    (h : Fits load tag areItems keys) (hkeys : keys'.Subperm keys) : Fits load tag areItems keys' := by
  obtain ⟨c, text, parts, hreads, hparts⟩ := h
  exact ⟨c, text, parts, hreads, hkeys.trans hparts⟩

theorem Fits.tail {load : DataLoader} {tag : Option Tag} {areItems : Bool} {key : Data} {keys : List Data}
    (h : Fits load tag areItems (key :: keys)) : Fits load tag areItems keys :=
  h.of_subperm (List.sublist_cons_self key keys).subperm

/-- A text that reads as entries, whatever of some texts follows it. -/
def ReadsAs (load : DataLoader) (tag : Option Tag) (column : Nat) (areItems : Bool)
    (follows : List (List Char)) (text : List Char) (parts : Parts) : Prop :=
  ∀ g ∈ follows, Reads load tag column areItems (spaces column ++ text ++ g) parts

/-! ## Places -/

section Places

variable {load : DataLoader} {tag : Option Tag} {o : Options} {t : Text}

/-- The record of a member without a separator. -/
def Unseparated (i : MemberInfo) : Prop := i.separator = ""

mutual

/-- Members that stand for entries have their places. -/
theorem Stands.laidOut {column : Nat} {areItems : Bool} {follows : List (List Char)} {part : Data × Data}
    {m : Member} (h : Stands load tag o t column areItems follows part m) : m.LaidOut Unseparated t := by
  match h with
  | .leaf h => exact ⟨h.separator_eq, _, _, h.placed⟩
  | .group h _ hbody hstart hstop _ _ _ _ hchildren =>
    exact ⟨h.separator_eq, _, _, _, h.placed, hbody, hstart, hstop, hchildren.laidFrom⟩

theorem EachStands.laidFrom {column : Nat} {areItems : Bool} {follows : List (List Char)} {lo hi : Nat}
    {parts : Parts} {ms : List Member} (h : EachStands load tag o t column areItems follows lo hi parts ms) :
    LaidFrom Unseparated t hi lo ms := by
  match h with
  | .last h => exact ⟨Nat.le_refl _, h.laidOut, Nat.le_refl _⟩
  | .cons h hle _ _ _ hrest =>
    exact ⟨Nat.le_refl _, h.laidOut, hrest.laidFrom.weaken hle (Nat.le_refl _)⟩

end

mutual

/-- Items inside members that stand for entries stay in order. -/
theorem Stands.throughout {column : Nat} {areItems : Bool} {follows : List (List Char)} {part : Data × Data}
    {m : Member} (h : Stands load tag o t column areItems follows part m) : m.Throughout (ChildrenStay o) := by
  match h with
  | .leaf _ => exact fun _ => ⟨fun _ hm => absurd hm List.not_mem_nil, fun _ => .nil⟩
  | .group _ hcontainer _ _ _ _ _ _ hstay hchildren =>
    exact ⟨fun hbrackets => hstay (hcontainer.mp hbrackets), eachThroughout_iff.mpr hchildren.throughout⟩

theorem EachStands.throughout {column : Nat} {areItems : Bool} {follows : List (List Char)} {lo hi : Nat}
    {parts : Parts} {ms : List Member} (h : EachStands load tag o t column areItems follows lo hi parts ms) :
    ∀ m ∈ ms, m.Throughout (ChildrenStay o) := by
  match h with
  | .last h => exact List.forall_mem_singleton.mpr h.throughout
  | .cons h _ _ _ _ hrest => exact List.forall_mem_cons.mpr ⟨h.throughout, hrest.throughout⟩

end

end Places

section Blocks

variable {load : DataLoader} {tag : Option Tag} {o : Options} {t : Text} {column : Nat} {areItems : Bool}
  {follows : List (List Char)} {lo hi : Nat} {parts : Parts} {ms : List Member}

/-! ## Entries one below the other -/

/-- An entry above others reads with them. -/
theorem ReadsAs.cons (hload : LoadsBlocks load tag) {text rest g : List Char} {part : Data × Data}
    (h : ReadsAs load tag column areItems follows text [part]) (hg : g ∈ follows)
    (hbreak : g.getLast? = some '\n') (hrest : ReadsAs load tag column areItems follows rest parts)
    (hfits : Fits load tag areItems (part.1 :: parts.map (·.1))) :
    ReadsAs load tag column areItems follows (text ++ (g ++ spaces column ++ rest)) (part :: parts) := by
  intro g' hg'
  have hne : g ≠ [] := by
    rintro rfl
    cases hbreak
  have hlast : (spaces column ++ text ++ g).getLast? = some '\n' := by
    rw [List.getLast?_append_of_ne_nil _ hne, hbreak]
  have htext : spaces column ++ (text ++ (g ++ spaces column ++ rest)) ++ g' =
      spaces column ++ text ++ g ++ (spaces column ++ rest ++ g') := by
    simp only [List.append_assoc]
  rw [htext]
  exact (h g hg).append hload (hrest g' hg') hlast hfits

/-- The unit of a member that stands for an entry reads as the entry. -/
theorem Stands.slice_reads {part : Data × Data} {m : Member}
    (h : Stands load tag o t column areItems follows part m) :
    ReadsAs load tag column areItems follows (t.slice m.unitStart m.unitStop) [part] := by
  cases h with
  | @leaf _ _ _ _ i _ _ h =>
    have hplaced : Placed t (Member.leaf i).info _ _ := h.placed
    rw [hplaced.unitStart_eq, hplaced.unitStop_eq]
    exact h.reads
  | @group _ _ _ _ _ _ _ _ _ i _ _ _ children h =>
    have hplaced : Placed t (Member.group i children).info _ _ := h.placed
    rw [hplaced.unitStart_eq, hplaced.unitStop_eq]
    exact h.reads

/-- A block of members that stand for entries reads as the entries. -/
theorem EachStands.slice_reads (hload : LoadsBlocks load tag)
    (h : EachStands load tag o t column areItems follows lo hi parts ms)
    (hfits : Fits load tag areItems (parts.map (·.1))) :
    ReadsAs load tag column areItems follows (t.slice lo hi) parts := by
  induction ms generalizing lo parts with
  | nil => cases h
  | cons m ms ih =>
    cases h with
    | last h => exact h.slice_reads
    | cons h hle hg hbreak hgap hrest =>
      have hunit := Nat.le_of_lt h.laidOut.unit_lt
      have hinside := hrest.laidFrom.le
      rw [← Text.slice_append t hunit (Nat.le_trans hle hinside), ← Text.slice_append t hle hinside, hgap]
      exact h.slice_reads.cons hload hg hbreak (ih hrest hfits.tail) hfits

/-! ## Gaps -/

/-- The gaps between members that stand for entries are texts that may follow one. -/
theorem EachStands.exists_gaps (h : EachStands load tag o t column areItems follows lo hi parts ms) {x : Excerpt}
    {a b : Nat} (hx : Shows x t a b) (ha : a ≤ lo) (hb : hi ≤ b) :
    ∃ gs : List (List Char), gs.length + 1 = ms.length ∧
      (∀ g ∈ gs, g ∈ follows ∧ g.getLast? = some '\n') ∧
      ∀ cursor, gapsFrom x hi cursor ms = x.slice cursor lo :: (gs.map (· ++ spaces column) ++ [[]]) := by
  induction ms generalizing lo parts with
  | nil => cases h
  | cons m ms ih =>
    cases h with
    | last h =>
      have hself : x.slice m.unitStop m.unitStop = [] := Text.slice_self _ (Nat.le_refl _)
      refine ⟨[], rfl, fun _ hg => absurd hg List.not_mem_nil, fun cursor => ?_⟩
      rw [gapsFrom, gapsFrom, hself]
      rfl
    | @cons _ _ _ lo' _ _ _ _ _ g h hle hg hbreak hgap hrest =>
      have hunit := h.laidOut.unit_lt
      obtain ⟨gs, hlength, hgs, hgaps⟩ := ih hrest (by omega)
      have hshown : x.slice m.unitStop lo' = g ++ spaces column := by
        rw [hx (by omega) (Nat.le_trans hrest.laidFrom.le hb), hgap]
      refine ⟨g :: gs, by rw [List.length_cons, hlength, List.length_cons],
        List.forall_mem_cons.mpr ⟨⟨hg, hbreak⟩, hgs⟩, fun cursor => ?_⟩
      rw [gapsFrom, hgaps, hshown]
      rfl

/-- Units that read as entries read as a block of them between such gaps. -/
theorem interleave_reads (hload : LoadsBlocks load tag) {units gs : List (List Char)} {parts : Parts}
    (h : List.Forall₂ (fun unit part => ReadsAs load tag column areItems follows unit [part]) units parts)
    (hlength : gs.length + 1 = units.length) (hgs : ∀ g ∈ gs, g ∈ follows ∧ g.getLast? = some '\n')
    (hfits : Fits load tag areItems (parts.map (·.1))) (gap : List Char) :
    ∃ text, interleave (gap :: (gs.map (· ++ spaces column) ++ [[]])) units = gap ++ text ∧
      ReadsAs load tag column areItems follows text parts := by
  induction h generalizing gs gap with
  | nil => cases hlength
  | @cons unit part units parts h hrest ih =>
    cases gs with
    | nil =>
      obtain rfl := List.eq_nil_of_length_eq_zero (Nat.succ.inj hlength).symm
      cases hrest
      exact ⟨unit, by simp [interleave], h⟩
    | cons g gs =>
      obtain ⟨hg, hbreak⟩ := hgs g List.mem_cons_self
      obtain ⟨text, htext, hreads⟩ := ih (Nat.succ.inj hlength) (fun g hg => hgs g (List.mem_cons_of_mem _ hg))
        hfits.tail (g ++ spaces column)
      refine ⟨unit ++ (g ++ spaces column ++ text), ?_, h.cons hload hg hbreak hreads hfits⟩
      rw [List.map_cons, List.cons_append, interleave, htext, List.append_assoc]

/-! ## Units -/

theorem commonSeparator_empty {separators : List String} (h : ∀ s ∈ separators, s = "") :
    commonSeparator separators "" = "" := by
  unfold commonSeparator
  split
  · rfl
  · have hnone : separators.dropLast.filter (!·.isEmpty) = [] := by
      rw [List.filter_eq_nil_iff]
      intro s hs
      rw [h s (List.dropLast_subset _ hs)]
      decide
    rw [hnone]
    rfl

/-- Where there are no separators none is put in. -/
theorem slotSeparator_empty {s : Setting} (hs : s.rules = Rules.yaml) {separators : List String}
    (h : ∀ s ∈ separators, s = "") (slot : Nat) : slotSeparator s "" slot separators = "" := by
  have hlast : separators.getLast?.getD "" = "" := by
    cases hlast : separators.getLast? with
    | none => rfl
    | some last => exact h last (List.mem_of_getLast? hlast)
  unfold slotSeparator
  rw [hs]
  show (if (slot + 1 == separators.length && false) = true then _ else
    if false = true then _ else if (slot + 1 == separators.length) = true then
      if (separators.getLast?.getD "" == "") = true then "" else ""
    else commonSeparator separators "") = ""
  rw [Bool.and_false, if_neg (by decide), if_neg (by decide), commonSeparator_empty h]
  split
  · rw [hlast]
    rfl
  · rfl

theorem unitsFrom_eq {s : Setting} (hs : s.rules = Rules.yaml) {separators : List String}
    (hseparators : ∀ x ∈ separators, x = "") {ms' : List Member}
    (hms : ∀ m ∈ ms', m.info.separator = "") (slot : Nat) :
    unitsFrom s separators slot (memberTexts s ms') =
      ms'.map fun m => unitText s m.info (memberText s m) "" := by
  induction ms' generalizing slot with
  | nil => rfl
  | cons m rest ih =>
    rw [memberTexts, unitsFrom, ih (fun m' hm' => hms m' (List.mem_cons_of_mem m hm')),
      hms m List.mem_cons_self, slotSeparator_empty hs hseparators, List.map_cons]

/-- The unit of an entry is the comments above it and its text. -/
theorem Spelled.unitText_eq {part : Data × Data} {i : MemberInfo} {span unit : Span}
    (h : Spelled load tag t column areItems follows part i span unit) {s : Setting} {a b : Nat}
    (hx : Shows s.excerpt t a b) (ha : a ≤ unit.start) (hb : unit.stop ≤ b) (text : List Char) :
    unitText s i text "" = t.slice unit.start span.start ++ text := by
  have hlead : s.excerpt.slice unit.start span.start = t.slice unit.start span.start := by
    have hle := h.placed.nonempty
    have hle' := h.placed.follows
    exact hx ha (by omega)
  have hafter : s.excerpt.slice span.stop unit.stop = [] := by
    rw [h.stop_eq]
    exact Text.slice_self _ (Nat.le_refl _)
  unfold unitText
  rw [h.placed.unit_eq, h.placed.span_eq]
  simp only [h.separator_eq, hlead, hafter]
  show t.slice unit.start span.start ++ text ++ "".toList ++ [] = _
  simp

/-- An entry as it stands in the source. -/
theorem Spelled.verbatim_reads {part : Data × Data} {i : MemberInfo} {span unit : Span}
    (h : Spelled load tag t column areItems follows part i span unit) {s : Setting} {a b : Nat}
    (hx : Shows s.excerpt t a b) (ha : a ≤ unit.start) (hb : unit.stop ≤ b) :
    ReadsAs load tag column areItems follows (unitText s i (verbatim s i) "") [part] := by
  have hleads := h.placed.leads
  have hnonempty := h.placed.nonempty
  have hfollows := h.placed.follows
  have hverbatim : verbatim s i = t.slice span.start span.stop := by
    unfold verbatim
    rw [h.placed.span_eq]
    exact hx (by omega) (by omega)
  rw [h.unitText_eq hx ha hb, hverbatim, Text.slice_append t hleads (Nat.le_of_lt hnonempty), ← h.stop_eq]
  exact h.reads

/-- An entry with the block inside it replaced reads as the entry with the new block. -/
theorem Spelled.replaced_reads (hload : LoadsBlocks load tag) {key : Data} {itag : Option Tag} {column' : Nat}
    {inner : Bool} {follows' : List (List Char)} {parts parts' : Parts} {i : MemberInfo} {span unit body : Span}
    (h : Spelled load tag t column areItems follows (key, blockOf inner itag parts) i span unit)
    (hstart : span.start ≤ body.start) (hle : body.start ≤ body.stop) (hstop : body.stop ≤ span.stop)
    (hleads : Leads column column' (t.slice unit.start body.start))
    (hfollows : ∀ g ∈ follows, t.slice body.stop unit.stop ++ g ∈ follows')
    (hown : ReadsAs load tag column' inner follows' (t.slice body.start body.stop) parts) {text : List Char}
    (hnew : ReadsAs load tag column' inner follows' text parts')
    (hkeys : (parts.map (·.1)).Perm (parts'.map (·.1))) {s : Setting} {a b : Nat} (hx : Shows s.excerpt t a b)
    (ha : a ≤ unit.start) (hb : unit.stop ≤ b) :
    ReadsAs load tag column areItems follows
      (unitText s i (s.excerpt.slice span.start body.start ++ text ++ s.excerpt.slice body.stop span.stop) "")
      [(key, blockOf inner itag parts')] := by
  intro g hg
  have hlead := h.placed.leads
  have hunit : t.slice unit.start unit.stop = t.slice unit.start body.start ++
      (t.slice body.start body.stop ++ t.slice body.stop unit.stop) := by
    have hends := h.stop_eq
    rw [Text.slice_append t hle (by omega), Text.slice_append t (by omega) (by omega)]
  have hwritten :
      unitText s i (s.excerpt.slice span.start body.start ++ text ++ s.excerpt.slice body.stop span.stop) "" =
        t.slice unit.start body.start ++ (text ++ t.slice body.stop unit.stop) := by
    have hends := h.stop_eq
    rw [h.unitText_eq hx ha hb, hx (by omega) (by omega), hx (by omega) (by omega), ← h.stop_eq,
      ← Text.slice_append t hlead hstart]
    simp only [List.append_assoc]
  have hentry := h.reads g hg
  have hown := hown _ (hfollows g hg)
  have hnew := hnew _ (hfollows g hg)
  rw [hunit] at hentry
  rw [hwritten]
  simp only [List.append_assoc] at hentry hown hnew ⊢
  have hnest := Reads.nest hload hleads (by simpa only [List.append_assoc] using hentry) hown hnew hkeys
  simpa only [List.append_assoc] using hnest

/-! ## Members that are turned -/

/-- However a member is turned, it is written as an entry with the same key and the same value. -/
def Writes (load : DataLoader) (tag : Option Tag) (s : Setting) (column : Nat) (areItems : Bool)
    (follows : List (List Char)) (part : Data × Data) (m : Member) : Prop :=
  ∀ m', m.Turned m' → ∃ part', part.1 = part'.1 ∧ part.2.Same part'.2 ∧
    ReadsAs load tag column areItems follows (unitText s m'.info (memberText s m') "") [part']

variable {s : Setting}

/-- Members in order are written as entries in order. -/
theorem exists_parts_of_eachTurned {mid : Parts} {ms ms' : List Member}
    (h : List.Forall₂ (Writes load tag s column areItems follows) mid ms) (hturned : EachTurned ms ms') :
    ∃ parts', List.Forall₂ (fun p q => p.1 = q.1 ∧ p.2.Same q.2) mid parts' ∧
      List.Forall₂ (fun unit part => ReadsAs load tag column areItems follows unit [part])
        (ms'.map fun m => unitText s m.info (memberText s m) "") parts' := by
  induction h generalizing ms' with
  | nil =>
    cases hturned
    exact ⟨[], .nil, .nil⟩
  | cons hwrites _ ih =>
    cases hturned with
    | cons hm hrest =>
      obtain ⟨part', hkey, hvalue, hreads⟩ := hwrites _ hm
      obtain ⟨parts', hsame, heach⟩ := ih hrest
      exact ⟨part' :: parts', .cons ⟨hkey, hvalue⟩ hsame, .cons hreads heach⟩

/-- Members that are turned are written as the same entries. -/
theorem exists_parts_of_turned (h : List.Forall₂ (Writes load tag s column areItems follows) parts ms)
    {ms' : List Member} (hturned : Turned areItems ms ms') :
    ∃ parts', SameParts areItems parts parts' ∧
      List.Forall₂ (fun unit part => ReadsAs load tag column areItems follows unit [part])
        (ms'.map fun m => unitText s m.info (memberText s m) "") parts' := by
  obtain ⟨mid, hperm, hkept, heach⟩ := hturned
  obtain ⟨order, horder, hsame, hwrites⟩ : ∃ order, parts.Perm order ∧ (areItems = true → order = parts) ∧
      List.Forall₂ (Writes load tag s column areItems follows) order mid := by
    cases areItems with
    | true => exact ⟨parts, .refl _, fun _ => rfl, (hkept rfl).symm ▸ h⟩
    | false =>
      obtain ⟨order, hwrites, horder⟩ := List.perm_comp_forall₂ hperm.symm h.flip
      exact ⟨order, horder.symm, (Bool.noConfusion ·), hwrites.flip⟩
  obtain ⟨parts', hparts, hunits⟩ := exists_parts_of_eachTurned hwrites heach
  exact ⟨parts', ⟨order, horder, hsame, hparts⟩, hunits⟩

/-- Members that stand for the entries of a block are dealt into it as a text that reads as the same
entries. -/
theorem EachStands.dealt_reads (hload : LoadsBlocks load tag) (hs : s.rules = Rules.yaml)
    (h : EachStands load tag o t column areItems follows lo hi parts ms)
    (hfits : Fits load tag areItems (parts.map (·.1)))
    (hwrites : List.Forall₂ (Writes load tag s column areItems follows) parts ms) {a b : Nat}
    (hx : Shows s.excerpt t a b) (ha : a ≤ lo) (hb : hi ≤ b) {body : Span} (hstart : body.start = lo)
    (hstop : body.stop = hi) {ms' : List Member} (hturned : Turned areItems ms ms') :
    ∃ parts', SameParts areItems parts parts' ∧
      ReadsAs load tag column areItems follows (Layout.dealt s body (memberTexts s ms')) parts' := by
  subst hstart hstop
  obtain ⟨parts', hsame, hunits⟩ := exists_parts_of_turned hwrites hturned
  refine ⟨parts', hsame, ?_⟩
  have hlaid := h.laidFrom
  have hr := hturned.rearranged
  have hinfos := sourceOrder_infos hlaid hr
  have hlength := hr.infos_perm.length_eq
  rw [List.length_map, List.length_map] at hlength
  have hmembers : (memberTexts s ms').map (·.1) = ms' := map_fst_memberTexts s ms'
  have hseparator : ∀ i ∈ ms.map Member.info, i.separator = "" := by
    intro i hi
    obtain ⟨m, hm, rfl⟩ := List.mem_map.mp hi
    exact (hlaid.of_mem hm).1.placed.1
  have hown : ∀ m ∈ ms', m.info.separator = "" := fun m hm =>
    hseparator _ (hr.infos_perm.mem_iff.mp (List.mem_map_of_mem hm))
  have hseparators : ∀ x ∈ (sourceOrder ms').map (·.info.separator), x = "" := by
    intro x hx
    obtain ⟨m, hm, rfl⟩ := List.mem_map.mp hx
    exact hseparator _ (hinfos ▸ List.mem_map_of_mem hm)
  obtain ⟨gs, hcount, hgs, hgaps⟩ := h.exists_gaps hx ha hb
  obtain ⟨text, htext, hreads⟩ := interleave_reads hload hunits (by rw [List.length_map, hlength, hcount]) hgs
    (hfits.of_subperm hsame.keys_perm.symm.subperm) []
  have hempty : (memberTexts s ms').isEmpty = false := by
    rw [Json.memberTexts_eq_map]
    cases ms' with
    | nil =>
      rw [← hlength] at hcount
      cases hcount
    | cons m rest => rfl
  have hself : s.excerpt.slice body.start body.start = [] := Text.slice_self _ (Nat.le_refl _)
  unfold Layout.dealt
  simp only [hmembers, bounds_eq hlaid hr, hempty, Bool.false_eq_true, if_false,
    Json.gapsFrom_congr s.excerpt body.stop hinfos, unitsFrom_eq hs hseparators hown, hgaps, hself, htext,
    List.nil_append]
  exact hreads

end Blocks

/-! ## All depths -/

section Write

variable {load : DataLoader} {tag : Option Tag} {o : Options} {t : Text} {s : Setting} {a b : Nat}

mutual

/-- A member that stands for an entry is written as one with the same data, however it is turned. -/
theorem Stands.writes (hload : LoadsBlocks load tag) (hs : s.rules = Rules.yaml) (hx : Shows s.excerpt t a b)
    {column : Nat} {areItems : Bool} {follows : List (List Char)} {part : Data × Data} {m : Member}
    (h : Stands load tag o t column areItems follows part m) (ha : a ≤ m.unitStart) (hb : m.unitStop ≤ b) :
    Writes load tag s column areItems follows part m := by
  match h with
  | @Stands.leaf _ _ _ _ _ _ _ _ i _ _ h =>
    intro m' hturned
    cases hturned
    have hplaced : Placed t (Member.leaf i).info _ _ := h.placed
    rw [hplaced.unitStart_eq] at ha
    rw [hplaced.unitStop_eq] at hb
    exact ⟨part, rfl, .refl _, h.verbatim_reads hx ha hb⟩
  | @Stands.group _ _ _ _ _ _ _ key itag column' inner follows' parts i span unit body children h hcontainer hbody
      hstart hstop hleads hfollows hfits hstay hchildren =>
    intro m' hturned
    cases hturned with
    | @group _ _ mid children' hperm hkept heach =>
      have hplaced : Placed t (Member.group i children).info _ _ := h.placed
      rw [hplaced.unitStart_eq] at ha
      rw [hplaced.unitStop_eq] at hb
      have hlead := h.placed.leads
      have hfollow := h.placed.follows
      have hle := hchildren.laidFrom.le
      have hinside := hchildren.writes hload hs hx (by omega) (by omega)
      have hturned : Turned inner children children' :=
        ⟨mid, hperm, fun hitems => hkept (hcontainer.mpr hitems), heach⟩
      have htext : memberText s (.group i children') = if reordered children' then
          s.excerpt.slice span.start body.start ++ Layout.dealt s body (memberTexts s children') ++
            s.excerpt.slice body.stop span.stop
          else verbatim s i := by
        simp only [memberText, h.placed.span_eq, hbody, bounds_eq hchildren.laidFrom hturned.rearranged]
      show ∃ part', _ ∧ _ ∧ ReadsAs _ _ _ _ _ (unitText s i (memberText s (.group i children')) "") _
      rw [htext]
      split
      · obtain ⟨parts', hsame, hdealt⟩ := hchildren.dealt_reads hload hs hfits hinside hx (by omega) (by omega)
          rfl rfl hturned
        exact ⟨(key, blockOf inner itag parts'), rfl, hsame.block itag, h.replaced_reads hload hstart hle hstop hleads
          hfollows (hchildren.slice_reads hload hfits) hdealt hsame.keys_perm hx ha hb⟩
      · exact ⟨_, rfl, .refl _, h.verbatim_reads hx ha hb⟩

/-- Members that stand for entries are written as such. -/
theorem EachStands.writes (hload : LoadsBlocks load tag) (hs : s.rules = Rules.yaml)
    (hx : Shows s.excerpt t a b) {column : Nat} {areItems : Bool} {follows : List (List Char)} {lo hi : Nat}
    {parts : Parts} {ms : List Member} (h : EachStands load tag o t column areItems follows lo hi parts ms)
    (ha : a ≤ lo) (hb : hi ≤ b) : List.Forall₂ (Writes load tag s column areItems follows) parts ms := by
  match h with
  | .last h => exact .cons (h.writes hload hs hx ha hb) .nil
  | .cons h hle _ _ _ hrest =>
    have hlt := h.laidOut.unit_lt
    have hleRest := hrest.laidFrom.le
    exact .cons (h.writes hload hs hx ha (by omega)) (hrest.writes hload hs hx (by omega) hb)

end

end Write

end MemberOrder.Yaml
