/-
  Arrangements that leave alone what they have arranged.

  Without natural order, each arrangement but that of keyframe steps is steady
  (`Sorter.arrange_steady`), and so is arranging around spreads (`Sorter.arrangeAround_steady`). The
  parts that most of them make are told by the record of an item alone. Two of them go by the items:
  vendor marks are listed in the order in which they first appear, and tag patterns are those in use.
  Both are the same for items that have been arranged (`vendorMarks_again`, `tagPatterns_perm`).
-/
import Mathlib.Data.List.Perm.Basic
import MemberOrder.Proofs.Order.Sorters
import MemberOrder.Proofs.Order.Stability

namespace MemberOrder.Order

open Std

/-! ## Vendor marks -/

section Marks

variable {α : Type} (view : α → Member)

/-- Adds the vendor mark of an item to the marks that were found before it. -/
def addMark (marks : List String) (x : α) : List String :=
  match (view x).info.vendorPrefix with
  | some mark => if mark.isEmpty || marks.contains mark then marks else marks ++ [mark]
  | none => marks

theorem vendorMarks_eq (items : List α) :
    vendorMarks view items = items.foldl (addMark view) vendorOrder := rfl

/-- Marks are added behind those that were found before, and each of them is the mark of an item. -/
theorem foldl_addMark_extra (items : List α) (base : List String) :
    ∃ extra, items.foldl (addMark view) base = base ++ extra ∧
      ∀ mark ∈ extra, ∃ x ∈ items, (view x).info.vendorPrefix = some mark := by
  induction items generalizing base with
  | nil => exact ⟨[], (List.append_nil base).symm, fun _ h => absurd h List.not_mem_nil⟩
  | cons x rest ih =>
    obtain ⟨extra, hextra, hfrom⟩ := ih (addMark view base x)
    have hfrom : ∀ mark ∈ extra, ∃ y ∈ x :: rest, (view y).info.vendorPrefix = some mark := by
      intro mark hmark
      obtain ⟨y, hy, hmarky⟩ := hfrom mark hmark
      exact ⟨y, List.mem_cons_of_mem x hy, hmarky⟩
    rw [List.foldl_cons, hextra]
    unfold addMark
    split
    · rename_i mark hmark
      split
      · exact ⟨extra, rfl, hfrom⟩
      · refine ⟨mark :: extra, by simp, fun m hm => ?_⟩
        rcases List.mem_cons.mp hm with rfl | hm
        · exact ⟨x, List.mem_cons_self, hmark⟩
        · exact hfrom m hm
    · exact ⟨extra, rfl, hfrom⟩

variable {view}

/-- Items with a mark that is known add none. -/
theorem foldl_addMark_known {mark : String} {items : List α} {base : List String}
    (h : ∀ x ∈ items, (view x).info.vendorPrefix = some mark) (hmark : mark ∈ base) :
    items.foldl (addMark view) base = base := by
  induction items with
  | nil => rfl
  | cons x rest ih =>
    have hx : addMark view base x = base := by simp [addMark, h x List.mem_cons_self, hmark]
    rw [List.foldl_cons, hx, ih fun y hy => h y (List.mem_cons_of_mem x hy)]

/-- Items with a mark that is new add it once. -/
theorem foldl_addMark_new {mark : String} {items : List α} {base : List String} (hempty : mark ≠ "")
    (h : ∀ x ∈ items, (view x).info.vendorPrefix = some mark) (hsome : items ≠ []) (hmark : mark ∉ base) :
    items.foldl (addMark view) base = base ++ [mark] := by
  cases items with
  | nil => exact absurd rfl hsome
  | cons x rest =>
    have hx : addMark view base x = base ++ [mark] := by
      simp [addMark, h x List.mem_cons_self, hmark, hempty]
    rw [List.foldl_cons, hx]
    exact foldl_addMark_known (fun y hy => h y (List.mem_cons_of_mem x hy)) (by simp)

/-- Items without a mark add none. -/
theorem foldl_addMark_unmarked {items : List α} (h : ∀ x ∈ items, hasVendor (view x) = false)
    (base : List String) : items.foldl (addMark view) base = base := by
  induction items with
  | nil => rfl
  | cons x rest ih =>
    have hx : addMark view base x = base := by
      have hnone := h x List.mem_cons_self
      unfold hasVendor at hnone
      unfold addMark
      split
      · rename_i mark hmark
        rw [hmark] at hnone
        simp only [Bool.not_eq_false'] at hnone
        simp [hnone]
      · rfl
    rw [List.foldl_cons, hx, ih fun y hy => h y (List.mem_cons_of_mem x hy)]

/-- Groups of items, each with a mark of its own, add in turn those marks that are not known. -/
theorem foldl_addMark_groups {known base marks : List String} {group : String → List α}
    (hgroup : ∀ mark ∈ marks, (∀ x ∈ group mark, (view x).info.vendorPrefix = some mark) ∧
      (mark ∉ known → group mark ≠ []))
    (hknown : known ⊆ base) (hnodup : marks.Nodup) (hempty : "" ∉ marks) :
    (marks.flatMap group).foldl (addMark view) base = base ++ marks.filter (!base.contains ·) := by
  induction marks generalizing base with
  | nil => simp
  | cons mark rest ih =>
    obtain ⟨hmark, hnodup⟩ := List.nodup_cons.mp hnodup
    obtain ⟨hsame, hsome⟩ := hgroup mark List.mem_cons_self
    have hgroup := fun m hm => hgroup m (List.mem_cons_of_mem mark hm)
    rw [List.mem_cons, not_or] at hempty
    rw [List.flatMap_cons, List.foldl_append]
    by_cases hbase : mark ∈ base
    · rw [foldl_addMark_known hsame hbase, ih hgroup hknown hnodup hempty.2,
        List.filter_cons_of_neg (by simp [hbase])]
    · have hnew : rest.filter (!(base ++ [mark]).contains ·) = rest.filter (!base.contains ·) := by
        refine List.filter_congr fun m hm => ?_
        have hne : m ≠ mark := fun heq => hmark (heq ▸ hm)
        simp [hne]
      rw [foldl_addMark_new (Ne.symm hempty.1) hsame (hsome fun hmem => hbase (hknown hmem)) hbase,
        ih hgroup (List.subset_append_of_subset_left _ hknown) hnodup hempty.2, hnew,
        List.filter_cons_of_pos (by simp [hbase]), List.append_assoc]
      rfl

/-- The marks of declarations that have been grouped by their marks come in the same order. -/
theorem vendorMarks_again {arrange : Arrangement} (hsteady : Steady arrange) {items r : List α}
    (h : joinParts (keyedParts (·.vendorPrefix) (fun i => !hasVendor (.leaf i)) arrange
      (vendorMarks view items)) view items = .ok r) : vendorMarks view r = vendorMarks view items := by
  obtain ⟨hnodup, hempty, -⟩ := vendorMarks_spec view items
  obtain ⟨extra, hextra, hfrom⟩ := foldl_addMark_extra view items vendorOrder
  rw [← vendorMarks_eq] at hextra
  obtain ⟨others, rfl, hgroups, hothers⟩ := joinParts_keyedParts h
  have hmem {mark : String} (hmark : mark ∈ vendorMarks view items) (x : α) :
      x ∈ keyedChunk (·.vendorPrefix) arrange view items mark ↔
        x ∈ items ∧ (view x).info.vendorPrefix = some mark := by
    rw [(hsteady.perm (hgroups mark hmark)).mem_iff, List.mem_filter, beq_iff_eq]
  have hmarked : ∀ mark ∈ vendorMarks view items,
      (∀ x ∈ keyedChunk (·.vendorPrefix) arrange view items mark,
        (view x).info.vendorPrefix = some mark) ∧
      (mark ∉ vendorOrder → keyedChunk (·.vendorPrefix) arrange view items mark ≠ []) := by
    refine fun mark hmark => ⟨fun x hx => ((hmem hmark x).mp hx).2, fun hnew => ?_⟩
    -- a mark that is not well known is the mark of an item
    have hlisted := hmark
    rw [hextra, List.mem_append] at hlisted
    obtain ⟨x, hx, hmarkx⟩ := hfrom mark (hlisted.resolve_left hnew)
    exact List.ne_nil_of_mem ((hmem hmark x).mpr ⟨hx, hmarkx⟩)
  have hunmarked : ∀ x ∈ others, hasVendor (view x) = false := by
    intro x hx
    have hx := (List.mem_filter.mp ((hsteady.perm hothers).mem_iff.mp hx)).2
    rwa [Bool.not_eq_true'] at hx
  have hold : vendorOrder.filter (!vendorOrder.contains ·) = [] := by decide
  have hnew : extra.filter (!vendorOrder.contains ·) = extra := by
    rw [hextra] at hnodup
    refine List.filter_eq_self.mpr fun mark hmark => ?_
    have hne := fun hknown => (List.nodup_append.mp hnodup).2.2 mark hknown mark hmark rfl
    simpa using hne
  rw [vendorMarks_eq, List.foldl_append,
    foldl_addMark_groups hmarked (List.Subset.refl _) hnodup hempty,
    foldl_addMark_unmarked hunmarked, hextra, List.filter_append, hold, hnew, List.nil_append]

theorem vendorMarks_along {β : Type} {view' : β → Member} (f : α → β)
    (hf : ∀ x, (view' (f x)).info = (view x).info) (items : List α) :
    vendorMarks view' (items.map f) = vendorMarks view items := by
  have hadd : (fun marks x => addMark view' marks (f x)) = addMark view := by
    funext marks x
    rw [addMark, addMark, hf]
  rw [vendorMarks_eq, vendorMarks_eq, List.foldl_map, hadd]

end Marks

/-- Groups made by tests that are arranged one by one are arranged in parts. -/
theorem eachGroup_eq_joinParts (arrange : Arrangement) {α : Type} (view : α → Member)
    (tests : List (MemberInfo → Bool)) (items : List α) :
    eachGroup (arrange α view) (tests.map fun test => items.filter fun x => test (view x).info) =
      joinParts (tests.map fun test => ⟨test, arrange⟩) view items := by
  induction tests with
  | nil => rfl
  | cons test rest ih =>
    rw [List.map_cons, List.map_cons, eachGroup, joinParts, ih]
    rfl

/-! ## Tag patterns -/

instance compareChars_trans : TransCmp compareChars := by
  have heq : compareChars = compareOn (List.map Char.toNat) := by
    funext a b
    exact compareChars_eq a b
  rw [heq]
  infer_instance

theorem eq_of_compareChars {a b : List Char} (h : compareChars a b = .eq) : a = b := by
  rw [compareChars_eq, LawfulEqCmp.compare_eq_iff_eq] at h
  exact List.map_injective_iff.mpr (fun _ _ => Char.toNat_inj.mp) h

/-- The tag patterns in use do not depend on the order of the fields. -/
theorem tagPatterns_perm {α : Type} {view : α → Member} {items r : List α} (h : r.Perm items) :
    tagPatterns view r = tagPatterns view items := by
  have hle (a b : String) : (compareChars a.toList b.toList != .gt) =
      (compareChars a.toList b.toList).isLE := by
    cases compareChars a.toList b.toList <;> rfl
  unfold tagPatterns
  simp only [hle]
  refine List.Perm.eq_of_pairwise (fun a b _ _ hab hba => ?_) (stableSort_isLE String.toList _)
    (stableSort_isLE String.toList _) ?_
  · exact String.toList_inj.mp (eq_of_compareChars (OrientedCmp.isLE_antisymm hab hba))
  · refine (stableSort_perm _ _).trans (List.Perm.trans ?_ (stableSort_perm _ _).symm)
    refine (List.perm_ext_iff_of_nodup (nodup_eraseDups _) (nodup_eraseDups _)).mpr fun a => ?_
    rw [List.mem_eraseDups, List.mem_eraseDups, (h.filterMap _).mem_iff]

theorem tagPatterns_along {α β : Type} {view : α → Member} {view' : β → Member} (f : α → β)
    (hf : ∀ x, (view' (f x)).info = (view x).info) (items : List α) :
    tagPatterns view' (items.map f) = tagPatterns view items := by
  have htags : (fun x => tagPattern (view' (f x)).info.structTags) =
      fun x => tagPattern (view x).info.structTags := by
    funext x
    rw [hf]
  unfold tagPatterns
  rw [List.filterMap_map]
  exact congrArg (fun tag => stableSort _ (items.filterMap tag).eraseDups) htags

/-! ## Sizes -/

theorem lookedAt_perm {α : Type} {items : List α} (h : 2 ≤ items.length) : (lookedAt items).Perm items := by
  match items with
  | first :: second :: rest => exact .swap _ _ _

theorem lookedAt_map {α β : Type} (f : α → β) (items : List α) :
    lookedAt (items.map f) = (lookedAt items).map f := by
  match items with
  | [] => rfl
  | [_] => rfl
  | _ :: _ :: _ => rfl

/-- The size of a field's type, where it can be told. -/
def sizeOfField (i : MemberInfo) : Nat := (typeSize i.value.display).toOption.getD 0

theorem typeSize_sizeOfField {i : MemberInfo} {size : Nat} (h : typeSize i.value.display = .ok size) :
    typeSize i.value.display = .ok (sizeOfField i) := by
  rw [sizeOfField, h]
  rfl

/-! ## Orders of fields -/

/-- The text by which the type of a field is compared. -/
def typeText (i : MemberInfo) : List Char := (Text.lower i.value.display).toList

/-- The order of fields by type, then by name. -/
def typeOrder (o : Options) : MemberInfo → MemberInfo → Ordering :=
  compareLex (fun a b => directed o (compareChars (typeText a) (typeText b))) (nameOrder o)

instance typeOrder_trans (o : Options) : TransCmp (typeOrder o) := by
  have := transCmp_on compareChars typeText
  unfold typeOrder
  infer_instance

/-- The order of fields by size, then by name. -/
def sizeOrder (o : Options) : MemberInfo → MemberInfo → Ordering :=
  compareLex (fun a b => directed o (compareOn sizeOfField a b)) (nameOrder o)

instance sizeOrder_trans (o : Options) : TransCmp (sizeOrder o) := by
  unfold sizeOrder
  infer_instance

section Plain

variable {o : Options} (hplain : o.naturalSort = false)
include hplain

/-! ## Scripts -/

theorem arrangeScript_steady (context : Option EntityKind) :
    Steady fun _ view items => arrangeScript o context view items := by
  have hgroup := sortGroup_steady hplain
  unfold arrangeScript
  cases hsplit : o.preserveMethodChaining &&
      !(context == some .interface || context == some .typeLiteral) with
  | false =>
    simp only [hsplit, Bool.false_eq_true, if_false]
    exact hgroup
  | true =>
    simp only [hsplit, if_true]
    exact steady_ok.split hgroup fun i => isChained (.leaf i)

/-! ## Style sheets -/

theorem arrangeByVendor_steady : Steady fun _ view items => arrangeByVendor o view items := by
  have hgroup := sortGroup_steady hplain
  cases hmarks : o.groupVendorPrefixes with
  | false =>
    simp only [arrangeByVendor, hmarks, Bool.not_false, if_true]
    exact hgroup
  | true =>
    have hjoin {α : Type} (view : α → Member) (items : List α) : arrangeByVendor o view items =
        joinParts (keyedParts (·.vendorPrefix) (fun i => !hasVendor (.leaf i))
          (fun _ view items => sortGroup o view items) (vendorMarks view items)) view items := by
      have hgroups := eachGroup_eq_joinParts (fun _ => sortGroup o) view ((vendorMarks view items).map
        (fun mark (i : MemberInfo) => i.vendorPrefix == some mark) ++
        [fun i => !hasVendor (.leaf i)]) items
      rw [List.map_append, List.map_append, List.map_map, List.map_map] at hgroups
      simp only [arrangeByVendor, hmarks, Bool.not_true, Bool.false_eq_true, if_false]
      exact hgroups
    refine .of_parts (fun _ view items => keyedParts (·.vendorPrefix) (fun i => !hasVendor (.leaf i))
      (fun _ view items => sortGroup o view items) (vendorMarks view items)) arrangeByVendor_perm hjoin
      (fun _ _ => steady_of_mem_keyedParts hgroup) (fun view items => ?_) (fun {_ view items r} h => ?_)
      fun f hf items => ?_
    · obtain ⟨hnodup, hempty, -⟩ := vendorMarks_spec view items
      refine keyedParts_apart hnodup fun mark hmark i hi => ?_
      have hne : mark ≠ "" := fun heq => hempty (heq ▸ hmark)
      simp [hasVendor, Member.info, hi, hne]
    · rw [hjoin] at h
      rw [vendorMarks_again hgroup h]
    · rw [vendorMarks_along f hf]

theorem arrangeByImportance_steady : Steady fun _ view items => arrangeByImportance o view items := by
  have hvendor := arrangeByVendor_steady hplain
  cases himportance : o.sortByImportance with
  | false =>
    simp only [arrangeByImportance, himportance, Bool.not_false, if_true]
    exact hvendor
  | true =>
    simp only [arrangeByImportance, himportance, Bool.not_true, Bool.false_eq_true, if_false]
    exact hvendor.split hvendor (·.important)

theorem arrangeDeclarations_steady : Steady fun _ view items => arrangeDeclarations o view items := by
  have hcategory : Steady fun _ view items =>
      .ok (sortByRank (fun x => categoryRank (view x).name) items) :=
    sortByRank_steady fun i => categoryRank i.name
  have himportance := arrangeByImportance_steady hplain
  unfold arrangeDeclarations
  cases o.groupVariables with
  | false =>
    cases o.groupByCategory with
    | false =>
      simp only [Bool.false_eq_true, if_false, List.nil_append, bind_pure]
      exact himportance
    | true => exact hcategory
  | true =>
    cases o.groupByCategory with
    | false => exact steady_ok.split himportance fun i => isVariable (.leaf i)
    | true => exact steady_ok.split hcategory fun i => isVariable (.leaf i)

theorem arrangeStyle_steady {context : Option EntityKind} (hsteps : context ≠ some .cssKeyframes) :
    Steady fun _ view items => arrangeStyle o context view items := by
  simp only [arrangeStyle, beq_eq_false_iff_ne.mpr hsteps, Bool.false_and, Bool.false_eq_true, if_false]
  exact arrangeDeclarations_steady hplain

/-! ## Fields -/

theorem compareNames_nameOrder (a b : MemberInfo) : compareNames o a.name b.name = .ok (nameOrder o a b) :=
  compareNames_plain hplain a.name b.name

theorem compareTypes_plain (a b : MemberInfo) : compareTypes o a b = .ok (typeOrder o a b) := by
  simp only [compareTypes, typeOrder, typeText, compareLex, compareNames_nameOrder hplain]
  cases compareChars (Text.lower a.value.display).toList (Text.lower b.value.display).toList <;>
    cases h : o.isDescending <;> simp [directed, h]

theorem compareSizes_plain {a b : MemberInfo} {m n : Nat} (ha : typeSize a.value.display = .ok m)
    (hb : typeSize b.value.display = .ok n) : compareSizes o a b = .ok (sizeOrder o a b) := by
  simp only [compareSizes, sizeOrder, compareLex, compareOn, compareNames_nameOrder hplain,
    typeSize_sizeOfField ha, typeSize_sizeOfField hb, Except.bind, bind]
  cases compare (sizeOfField a) (sizeOfField b) <;>
    cases h : o.isDescending <;> simp [directed, h] <;> rfl

theorem sortBySize_eq {α : Type} (view : α → Member) (items : List α) : sortBySize o view items = (do
      let _ ← (lookedAt items).mapM fun x => typeSize (view x).info.value.display
      sortBy o (compareSizes o) view items) := by
  simp only [sortBySize, hplain, Bool.false_eq_true, if_false]

theorem sortBySize_again {α : Type} {view : α → Member} {items r : List α}
    (h : sortBySize o view items = .ok r) : sortBySize o view r = .ok r := by
  have hperm := sortBySize_perm h
  rw [sortBySize_eq hplain] at h ⊢
  obtain ⟨sizes, hsizes, h⟩ := bind_ok h
  by_cases hmany : 2 ≤ items.length
  · -- all sizes are known
    have hknown {x : α} (hx : x ∈ items) : ∃ size, typeSize (view x).info.value.display = .ok size :=
      exists_of_mapM hsizes ((lookedAt_perm hmany).mem_iff.mpr hx)
    have hcompare : ∀ a ∈ items, ∀ b ∈ items, compareSizes o (view a).info (view b).info =
        .ok (sizeOrder o (view a).info (view b).info) := by
      intro a ha b hb
      obtain ⟨m, hm⟩ := hknown ha
      obtain ⟨n, hn⟩ := hknown hb
      exact compareSizes_plain hplain hm hn
    have hmany' : 2 ≤ r.length := hperm.length_eq ▸ hmany
    have hlooked : ∀ x ∈ lookedAt r, ∃ size, typeSize (view x).info.value.display = .ok size :=
      fun x hx => hknown (hperm.mem_iff.mp ((lookedAt_perm hmany').mem_iff.mp hx))
    obtain ⟨sizes', hsizes'⟩ := mapM_ok hlooked
    rw [hsizes']
    exact sortBy_again hplain hcompare h
  · -- a field alone stays where it is
    obtain rfl : r = items := by
      match items with
      | [] => exact hperm.eq_nil
      | [x] => exact hperm.eq_singleton
      | _ :: _ :: _ => exact absurd (Nat.le_add_left 2 _) hmany
    rw [hsizes]
    exact h

theorem sortBySize_steady : Steady fun _ view items => sortBySize o view items where
  perm := sortBySize_perm
  again := sortBySize_again hplain
  along {α β view view'} f hf items := by
    have hsize : (fun x => typeSize (view' (f x)).info.value.display) =
        fun x => typeSize (view x).info.value.display := by
      funext x
      rw [hf]
    rw [sortBySize_eq hplain, sortBySize_eq hplain, lookedAt_map, List.mapM_map, sortBy_along hplain f hf]
    simp only [Function.comp_def, hsize]
    cases (lookedAt items).mapM fun x => typeSize (view x).info.value.display <;> rfl

theorem orderFields_steady : Steady fun _ view items => orderFields o view items := by
  unfold orderFields
  cases o.structStrategy with
  | byType => exact sortBy_steady hplain (compareTypes_plain hplain)
  | bySize => exact sortBySize_steady hplain
  | alphabetical => exact sortGroup_steady hplain
  | preserveTags => exact sortGroup_steady hplain

theorem arrangeByVisibility_steady : Steady fun _ view items => arrangeByVisibility o view items := by
  have hfields := orderFields_steady hplain
  unfold arrangeByVisibility
  cases o.groupByVisibility with
  | false => exact hfields
  | true => exact hfields.split hfields isExported

theorem arrangeByTags_steady : Steady fun _ view items => arrangeByTags o view items := by
  have hvisibility := arrangeByVisibility_steady hplain
  cases htags : o.structStrategy == .preserveTags with
  | false =>
    simp only [arrangeByTags, htags, Bool.false_eq_true, if_false]
    exact hvisibility
  | true =>
    have hjoin {α : Type} (view : α → Member) (items : List α) : arrangeByTags o view items =
        joinParts (keyedParts (tagPattern ·.structTags) (fun i => (tagPattern i.structTags).isNone)
          (fun _ view items => arrangeByVisibility o view items) (tagPatterns view items)) view items := by
      have hgroups := eachGroup_eq_joinParts (fun _ => arrangeByVisibility o) view ((tagPatterns view items).map
        (fun pattern (i : MemberInfo) => tagPattern i.structTags == some pattern) ++
        [fun i => (tagPattern i.structTags).isNone]) items
      rw [List.map_append, List.map_append, List.map_map, List.map_map] at hgroups
      simp only [arrangeByTags, htags, if_true]
      exact hgroups
    refine .of_parts (fun _ view items => keyedParts (tagPattern ·.structTags)
      (fun i => (tagPattern i.structTags).isNone) (fun _ view items => arrangeByVisibility o view items)
      (tagPatterns view items)) arrangeByTags_perm hjoin (fun _ _ => steady_of_mem_keyedParts hvisibility)
      (fun view items => ?_) (fun {_ view items r} h => ?_) fun f hf items => ?_
    · refine keyedParts_apart ((stableSort_perm _ _).nodup_iff.mpr (nodup_eraseDups _)) ?_
      intro pattern _ i hi
      rw [hi]
      rfl
    · rw [tagPatterns_perm (arrangeByTags_perm h)]
    · rw [tagPatterns_along f hf]

theorem arrangeFields_steady : Steady fun _ view items => arrangeFields o view items := by
  have htags := arrangeByTags_steady hplain
  unfold arrangeFields
  cases o.groupEmbeddedFields with
  | false => exact htags
  | true => exact htags.split htags (·.isEmbedded)

/-! ## Entries -/

theorem arrangeRemaining_steady (rules : EntryRules) :
    Steady fun _ view items => arrangeRemaining o rules view items := by
  have hgroup := sortGroup_steady hplain
  cases hschema : rules.schemaGroups with
  | false =>
    simp only [arrangeRemaining, hschema, Bool.not_false, if_true]
    exact hgroup
  | true =>
    refine .of_parts (fun _ _ _ => (List.range (schemaBuckets.length + 2)).map fun rank =>
      ⟨fun i => schemaRank i == rank, fun _ view items => sortGroup o view items⟩) arrangeRemaining_perm
      (fun view items => ?_) (fun _ _ part hpart => ?_) (fun _ _ => List.pairwise_map.mpr ?_)
      (fun _ => rfl) fun _ _ _ => rfl
    · have hgroups := eachGroup_eq_joinParts (fun _ => sortGroup o) view ((List.range (schemaBuckets.length + 2)).map
        fun rank (i : MemberInfo) => schemaRank i == rank) items
      rw [List.map_map, List.map_map] at hgroups
      simp only [arrangeRemaining, hschema, Bool.not_true, Bool.false_eq_true, if_false]
      exact hgroups
    · obtain ⟨rank, -, rfl⟩ := List.mem_map.mp hpart
      exact hgroup
    · refine List.nodup_range.imp fun {rank rank'} hne i hi => ?_
      show (schemaRank i == rank') = false
      rw [eq_of_beq hi]
      simpa using hne

theorem arrangeEntries_steady (rules : EntryRules) (isArray : Bool) :
    Steady fun _ view items => arrangeEntries o rules isArray view items := by
  unfold arrangeEntries
  cases isArray with
  | true =>
    cases o.preserveArrayOrder with
    | true => exact steady_ok
    | false =>
      simp only [if_true, Bool.false_eq_true, if_false]
      have := transCmp_on comparePlain fun i => foldedName o (rules.elementKey i)
      have : TransCmp fun a b : MemberInfo => directed o (comparePlain
          (foldedName o (rules.elementKey a)) (foldedName o (rules.elementKey b))) := directed_trans o
      exact sortBy_steady hplain fun a b => compareNames_plain hplain _ _
  | false =>
    cases o.sortObjectKeys with
    | false => exact steady_ok
    | true =>
      have hlisted : Steady fun _ view items =>
          .ok (sortByRank (fun x => rules.customKeys.idxOf (view x).name) items) :=
        sortByRank_steady fun i => rules.customKeys.idxOf i.name
      exact hlisted.split (arrangeRemaining_steady hplain rules) fun i => rules.customKeys.contains i.name

end Plain

end MemberOrder.Order

namespace MemberOrder.Sorter

open MemberOrder.Order

variable {sorter : Sorter} {o : Options} {context : Option EntityKind}

/-- Without natural order every sorter's arrangement is steady, but for documents in which anchors are
lifted and for the steps of keyframes. -/
theorem arrange_steady (hplain : o.naturalSort = false) (hsorter : sorter ≠ .yaml)
    (hsteps : sorter = .style → context ≠ some .cssKeyframes) :
    Steady fun _ view items => sorter.arrange o context view items := by
  cases sorter with
  | generic => exact sortGroup_steady hplain
  | script => exact arrangeScript_steady hplain context
  | style => exact arrangeStyle_steady hplain (hsteps rfl)
  | struct => exact arrangeFields_steady hplain
  | json => exact arrangeEntries_steady hplain _ _
  | yaml => exact absurd rfl hsorter

/-- What is steady is steady around the spreads. -/
theorem arrangeAround_steady (h : Steady fun _ view items => sorter.arrange o context view items) :
    Steady fun _ view items => sorter.arrangeAround o context view items where
  perm := arrangeAround_perm
  again {α view items r} hr := by
    obtain ⟨arranged, harranged, hr⟩ := bind_ok hr
    cases hr
    have hperm := h.perm harranged
    have hfilter := refill_filter view hperm.length_eq fun y hy => by
      simpa using (List.mem_filter.mp (hperm.mem_iff.mp hy)).2
    have hself := refill_self view (refill view items arranged)
    rw [hfilter] at hself
    unfold arrangeAround
    rw [hfilter, h.again harranged]
    exact congrArg Except.ok hself
  along {α β view view'} f hf items := by
    have hregular : ((items.map f).filter fun x => !(view' x).info.isSpread) =
        (items.filter fun x => !(view x).info.isSpread).map f := by
      simp only [List.filter_map, Function.comp_def, hf]
    unfold arrangeAround
    rw [hregular, h.along f hf]
    cases sorter.arrange o context view (items.filter fun x => !(view x).info.isSpread) with
    | error fault => rfl
    | ok arranged => exact congrArg Except.ok (refill_map f hf items arranged)

end MemberOrder.Sorter
