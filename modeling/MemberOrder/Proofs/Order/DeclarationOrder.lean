/-
  The arrangement of style declarations as one stable sort.

  Declarations are taken apart in layers that options switch on and off: custom properties are put ahead
  and left as they are, the others are grouped by category alone or else by importance, by vendor mark
  and by the comparison chain. Each layer is a sort that goes by its own key first (`stableSort_ahead`,
  `stableSort_split`, `flatMap_stableSort`), so all of them together are one sort by `declarationOrder`,
  in which the place of a vendor mark depends on where marks first appear in the importance group
  (`marksInTurn`). Sorting by it leaves ties as they stand. A declaration that was read takes its mark
  from its name, so without importance and types declarations of one name tie, whatever else is asked for
  (`arrange_style_sorts`).
-/
import Mathlib.Data.List.Induction
import MemberOrder.Proofs.Order.FieldOrder
import MemberOrder.Proofs.Style.Declarations

namespace MemberOrder.Order

open Std

/-! ## Layers -/

section Layers

variable {α κ : Type}

/-- What passes a test comes first and ties; the rest goes by an order. -/
def ahead (test : κ → Bool) (order : κ → κ → Ordering) (a b : κ) : Ordering :=
  match test a, test b with
  | true, true => .eq
  | true, false => .lt
  | false, true => .gt
  | false, false => order a b

instance ahead_trans (test : κ → Bool) (order : κ → κ → Ordering) [TransCmp order] :
    TransCmp (ahead test order) where
  eq_swap {a b} := by
    have hswap : order a b = (order b a).swap := OrientedCmp.eq_swap
    unfold ahead
    cases test a <;> cases test b
    · exact hswap
    all_goals rfl
  isLE_trans {a b c} hab hbc := by
    unfold ahead at *
    cases ha : test a <;> cases hb : test b <;> cases hc : test c <;> simp only [ha, hb, hc] at *
    · exact TransCmp.isLE_trans hab hbc
    all_goals first | rfl | cases hab | cases hbc

/-- Whether an order of records lets the first of two items come first. -/
def allowedBy (order : MemberInfo → MemberInfo → Ordering) (view : α → Member) (a b : α) : Bool :=
  (order (view a).info (view b).info).isLE

variable {order order' : MemberInfo → MemberInfo → Ordering} {view : α → Member}

/-- Items that are put ahead of the others, which are sorted. -/
theorem stableSort_ahead (test : MemberInfo → Bool) (items : List α) :
    stableSort (allowedBy (ahead test order) view) items =
      items.filter (fun x => test (view x).info) ++
        stableSort (allowedBy order view) (items.filter fun x => !test (view x).info) := by
  have hapart : ∀ a b, test (view a).info = true → test (view b).info = false →
      allowedBy (ahead test order) view a b = true ∧ allowedBy (ahead test order) view b a = false :=
    fun a b ha hb => by simp [allowedBy, ahead, ha, hb]
  rw [stableSort_split (p := fun x => test (view x).info) hapart]
  congr 1
  · refine stableSort_self (List.Pairwise.imp_of_mem (fun {a b} ha hb _ => ?_) (List.pairwise_of_forall
      (R := fun _ _ => True) fun _ _ => trivial))
    simp [allowedBy, ahead, (List.mem_filter.mp ha).2, (List.mem_filter.mp hb).2]
  · refine stableSort_congr fun a ha b hb => ?_
    have ha : test (view a).info = false := by simpa using (List.mem_filter.mp ha).2
    have hb : test (view b).info = false := by simpa using (List.mem_filter.mp hb).2
    simp only [allowedBy, ahead, ha, hb]

/-- Groups made by rank, each sorted, are the items sorted by rank first. -/
theorem flatMap_stableSort {rank : α → Nat} {le le' : α → α → Bool}
    (hlt : ∀ a b, rank a < rank b → le' a b = true ∧ le' b a = false)
    (heq : ∀ a b, rank a = rank b → le' a b = le a b) (items : List α) (n : Nat) :
    (List.range n).flatMap (fun k => stableSort le (items.filter (rank · == k))) =
      stableSort le' (items.filter (rank · < n)) := by
  induction n with
  | zero => simp [stableSort]
  | succ n ih =>
    obtain ⟨hbelow, hat⟩ := filter_rank_succ rank items n
    have hapart : ∀ a b, decide (rank a < n) = true → decide (rank b < n) = false →
        le' a b = true ∧ le' b a = false := fun a b ha hb => by
      simp only [decide_eq_true_eq, decide_eq_false_iff_not] at ha hb
      exact hlt a b (by omega)
    have hsplit := stableSort_split (p := fun x => decide (rank x < n)) hapart
      (items.filter (rank · < n + 1))
    have hgroup : stableSort le' (items.filter (rank · == n)) =
        stableSort le (items.filter (rank · == n)) := by
      refine stableSort_congr fun a ha b hb => heq a b ?_
      exact (eq_of_beq (List.mem_filter.mp ha).2).trans (eq_of_beq (List.mem_filter.mp hb).2).symm
    rw [hsplit, hbelow, hat, hgroup, List.range_succ, List.flatMap_append, ih, List.flatMap_singleton]

/-- Items that tie with one record keep their order. -/
theorem stableSort_ties [TransCmp order] (i : MemberInfo) (items : List α) :
    (stableSort (allowedBy order view) items).filter (fun x => order i (view x).info == .eq) =
      items.filter fun x => order i (view x).info == .eq := by
  refine stableSort_filter (fun a b ha hb => ?_) items
  have ha : order (view a).info i = .eq := OrientedCmp.eq_comm.mp (eq_of_beq ha)
  have hb : order i (view b).info = .eq := eq_of_beq hb
  exact TransCmp.isLE_trans (b := i) (by rw [ha]; rfl) (by rw [hb]; rfl)

end Layers

/-! ## Vendor marks in turn -/

/-- The vendor mark of a declaration; an empty one counts as none. -/
def markOf (i : MemberInfo) : Option String := i.vendorPrefix.filter (!·.isEmpty)

theorem markOf_eq_some {i : MemberInfo} {mark : String} :
    markOf i = some mark ↔ i.vendorPrefix = some mark ∧ mark ≠ "" := by
  rw [markOf, Option.filter_eq_some_iff, Bool.not_eq_true', String.isEmpty_eq_false_iff]

theorem hasVendor_eq (m : Member) : hasVendor m = (markOf m.info).isSome := by
  unfold hasVendor markOf
  cases m.info.vendorPrefix with
  | none => rfl
  | some mark => cases h : mark.isEmpty <;> simp [h]

section Marks

variable {α : Type} (view : α → Member) (items : List α)

/-- The vendor marks, each once: the well known ones, then the others as they first appear. -/
def marksInTurn : List String := (vendorOrder ++ items.filterMap fun x => markOf (view x).info).eraseDups

theorem addMark_eq (marks : List String) (x : α) : addMark view marks x =
    match markOf (view x).info with
    | some mark => if mark ∈ marks then marks else marks ++ [mark]
    | none => marks := by
  unfold addMark markOf
  cases (view x).info.vendorPrefix with
  | none => rfl
  | some mark => cases hempty : mark.isEmpty <;> simp [Option.filter, hempty]

theorem eraseDups_concat (marks : List String) (mark : String) : (marks ++ [mark]).eraseDups =
    if mark ∈ marks then marks.eraseDups else marks.eraseDups ++ [mark] := by
  rw [List.eraseDups_append]
  split <;> rename_i hmem <;> simp [List.removeAll, hmem, List.eraseDups_cons]

theorem vendorMarks_eq_marksInTurn : vendorMarks view items = marksInTurn view items := by
  rw [vendorMarks_eq, marksInTurn]
  induction items using List.reverseRecOn with
  | nil => rfl
  | append_singleton rest x ih =>
    rw [List.foldl_append, ih, List.filterMap_append, List.foldl_cons, List.foldl_nil, addMark_eq,
      ← List.append_assoc]
    cases hmark : markOf (view x).info with
    | none => simp [hmark]
    | some mark => simp only [hmark, List.filterMap_cons, List.filterMap_nil, eraseDups_concat, List.mem_eraseDups]

/-- The place of a declaration by its vendor mark; those without one come last. -/
def markPlace (marks : List String) (i : MemberInfo) : Nat :=
  match markOf i with
  | some mark => marks.idxOf mark
  | none => marks.length

theorem markPlace_le (marks : List String) (i : MemberInfo) : markPlace marks i ≤ marks.length := by
  unfold markPlace
  split
  · exact List.idxOf_le_length
  · exact Nat.le_refl _

variable {view items}

theorem mem_marksInTurn {x : α} (hx : x ∈ items) {mark : String} (hmark : markOf (view x).info = some mark) :
    mark ∈ marksInTurn view items := by
  refine List.mem_eraseDups.mpr (List.mem_append_right _ ?_)
  exact List.mem_filterMap.mpr ⟨x, hx, hmark⟩

/-- The items with one of the marks are those at its place. -/
theorem filter_mark {k : Nat} (hk : k < (marksInTurn view items).length) :
    items.filter (fun x => (view x).info.vendorPrefix == some (marksInTurn view items)[k]) =
      items.filter fun x => markPlace (marksInTurn view items) (view x).info == k := by
  obtain ⟨hnodup, hempty, -⟩ := vendorMarks_spec view items
  rw [vendorMarks_eq_marksInTurn] at hnodup hempty
  have hne : (marksInTurn view items)[k] ≠ "" := fun heq => hempty (heq ▸ List.getElem_mem hk)
  refine List.filter_congr fun x hx => ?_
  rw [Bool.eq_iff_iff, beq_iff_eq, beq_iff_eq, markPlace]
  cases hmark : markOf (view x).info with
  | none =>
    have hother : (view x).info.vendorPrefix ≠ some (marksInTurn view items)[k] := fun heq => by
      rw [markOf_eq_some.mpr ⟨heq, hne⟩] at hmark
      cases hmark
    exact ⟨fun heq => absurd heq hother, fun heq => absurd heq (Nat.ne_of_gt hk)⟩
  | some mark =>
    have hmem := mem_marksInTurn hx hmark
    rw [(markOf_eq_some.mp hmark).1, Option.some.injEq]
    constructor
    · rintro rfl
      exact hnodup.idxOf_getElem k hk
    · rintro rfl
      exact (List.getElem_idxOf (List.idxOf_lt_length_iff.mpr hmem)).symm

/-- The items without a mark are those at the last place. -/
theorem filter_unmarked : (items.filter fun x => !hasVendor (view x)) = items.filter fun x =>
    markPlace (marksInTurn view items) (view x).info == (marksInTurn view items).length := by
  refine List.filter_congr fun x hx => ?_
  rw [hasVendor_eq, markPlace]
  cases hmark : markOf (view x).info with
  | none => simp
  | some mark =>
    have hlt := List.idxOf_lt_length_iff.mpr (mem_marksInTurn hx hmark)
    simp [Nat.ne_of_lt hlt]

/-- The groups by vendor mark are the groups by place. -/
theorem markGroups_eq : (vendorMarks view items).map (fun mark => items.filter fun x =>
      (view x).info.vendorPrefix == some mark) ++ [items.filter fun x => !hasVendor (view x)] =
    (List.range ((marksInTurn view items).length + 1)).map fun k =>
      items.filter fun x => markPlace (marksInTurn view items) (view x).info == k := by
  rw [vendorMarks_eq_marksInTurn, List.range_succ, List.map_append, List.map_singleton, ← filter_unmarked]
  refine congrArg (· ++ _) (List.ext_getElem (by simp) fun k hk _ => ?_)
  rw [List.length_map] at hk
  simp only [List.getElem_map, List.getElem_range]
  exact filter_mark hk

end Marks

/-! ## The order of declarations -/

section Order

variable {α : Type} (o : Options) (view : α → Member) (items : List α)

/-- Whether a declaration is put ahead of the others as a custom property. -/
def leads (i : MemberInfo) : Bool := o.groupVariables && isVariable (.leaf i)

/-- The items among which the vendor mark of a declaration has its place: those that are not put ahead,
and of these the ones of equal importance where that is sorted by. -/
def vendorGroup (i : MemberInfo) : List α :=
  items.filter fun x => !leads o (view x).info &&
    (!o.sortByImportance || (view x).info.important == i.important)

/-- By the place of the vendor mark among some marks, where they are grouped, then by the chain. -/
def markOrder (marks : MemberInfo → List String) : MemberInfo → MemberInfo → Ordering :=
  compareLex (compareOn fun i => if o.groupVendorPrefixes then markPlace (marks i) i else 0) (memberOrder o)

/-- Important declarations first, where importance counts, then by vendor mark and by the chain. -/
def importanceOrder (marks : MemberInfo → List String) : MemberInfo → MemberInfo → Ordering :=
  compareLex (byTest fun i => !o.sortByImportance || i.important) (markOrder o marks)

/-- The order of declarations among some items: custom properties ahead, where they are grouped; then by
category alone, where that is asked for; else by importance, by the place of the vendor mark in its group
and by the comparison chain. -/
def declarationOrder : MemberInfo → MemberInfo → Ordering :=
  ahead (leads o) (if o.groupByCategory then compareOn fun i => categoryRank i.name
    else importanceOrder o fun i => marksInTurn view (vendorGroup o view items i))

instance markOrder_trans (marks : MemberInfo → List String) : TransCmp (markOrder o marks) := by
  unfold markOrder
  infer_instance

instance importanceOrder_trans (marks : MemberInfo → List String) : TransCmp (importanceOrder o marks) := by
  unfold importanceOrder byTest
  infer_instance

instance declarationOrder_trans : TransCmp (declarationOrder o view items) := by
  unfold declarationOrder
  split <;> infer_instance

end Order

section Arranging

variable {o : Options} (hplain : o.naturalSort = false) {α : Type} {view : α → Member}
include hplain

theorem arrangeByVendor_sorts (items : List α) : arrangeByVendor o view items =
    .ok (stableSort (allowedBy (markOrder o fun _ => marksInTurn view items) view) items) := by
  unfold arrangeByVendor
  cases hgroup : o.groupVendorPrefixes with
  | false =>
    have hsame : markOrder o (fun _ => marksInTurn view items) = memberOrder o := by
      funext a b
      simp [markOrder, compareLex, compareOn, hgroup]
    rw [hsame]
    exact sortGroup_plain hplain view items
  | true =>
    simp only [Bool.not_true, Bool.false_eq_true, if_false]
    rw [markGroups_eq, eachGroup_plain hplain, List.flatMap_map]
    set marks := marksInTurn view items
    have hlt : ∀ a b : α, markPlace marks (view a).info < markPlace marks (view b).info →
        allowedBy (markOrder o fun _ => marks) view a b = true ∧
          allowedBy (markOrder o fun _ => marks) view b a = false := by
      intro a b hab
      simp [allowedBy, markOrder, compareLex, compareOn, hgroup, Nat.compare_eq_lt.mpr hab,
        Nat.compare_eq_gt.mpr hab]
    have heq : ∀ a b : α, markPlace marks (view a).info = markPlace marks (view b).info →
        allowedBy (markOrder o fun _ => marks) view a b = mayPrecede o view a b := by
      intro a b hab
      simp [allowedBy, mayPrecede, markOrder, compareLex, compareOn, hgroup, Nat.compare_eq_eq.mpr hab]
    have hall : items.filter (fun x => markPlace marks (view x).info < marks.length + 1) = items :=
      List.filter_eq_self.mpr fun x _ => decide_eq_true (Nat.lt_succ_of_le (markPlace_le _ _))
    have hgroups := flatMap_stableSort hlt heq items (marks.length + 1)
    rw [hall] at hgroups
    exact congrArg Except.ok hgroups

theorem arrangeByImportance_sorts (items : List α) : arrangeByImportance o view items =
    .ok (stableSort (allowedBy (importanceOrder o fun i => marksInTurn view (items.filter fun x =>
      !o.sortByImportance || (view x).info.important == i.important)) view) items) := by
  unfold arrangeByImportance
  cases himportance : o.sortByImportance with
  | false =>
    have hsame : importanceOrder o (fun i => marksInTurn view (items.filter fun x =>
        !false || (view x).info.important == i.important)) = markOrder o fun _ => marksInTurn view items := by
      funext a b
      simp [importanceOrder, byTest, compareLex, compareOn, himportance]
    rw [hsame]
    exact arrangeByVendor_sorts hplain items
  | true =>
    simp only [Bool.not_true, Bool.false_eq_true, if_false, Bool.false_or]
    rw [arrangeByVendor_sorts hplain, arrangeByVendor_sorts hplain]
    refine congrArg Except.ok ?_
    -- across the parts importance alone decides, and within a part it does not count
    have hfirst : compare false true = .lt ∧ compare true false = .gt := ⟨rfl, rfl⟩
    rw [stableSort_split (p := fun x => (view x).info.important) (fun a b ha hb => by
      simp [allowedBy, importanceOrder, byTest, compareLex, compareOn, himportance, ha, hb, hfirst]) items]
    congr 1
    · refine stableSort_congr fun a ha b hb => ?_
      have ha := (List.mem_filter.mp ha).2
      have hb := (List.mem_filter.mp hb).2
      simp [allowedBy, importanceOrder, markOrder, byTest, compareLex, compareOn, himportance, ha, hb]
    · refine stableSort_congr fun a ha b hb => ?_
      have ha := (List.mem_filter.mp ha).2
      have hb := (List.mem_filter.mp hb).2
      simp only [Bool.not_eq_true'] at ha hb
      simp [allowedBy, importanceOrder, markOrder, byTest, compareLex, compareOn, himportance, ha, hb]

theorem arrangeDeclarations_sorts (items : List α) : arrangeDeclarations o view items =
    .ok (stableSort (allowedBy (declarationOrder o view items) view) items) := by
  have hleads (x : α) : leads o (view x).info = (o.groupVariables && isVariable (view x)) := rfl
  have hahead : (if o.groupVariables then items.filter fun x => isVariable (view x) else []) =
      items.filter fun x => leads o (view x).info := by
    cases hgroup : o.groupVariables <;> simp [hleads, hgroup]
  have hrest : (if o.groupVariables then items.filter fun x => !isVariable (view x) else items) =
      items.filter fun x => !leads o (view x).info := by
    cases hgroup : o.groupVariables <;> simp [hleads, hgroup]
  unfold arrangeDeclarations declarationOrder
  rw [stableSort_ahead, hahead, hrest]
  cases hcategory : o.groupByCategory with
  | true =>
    simp only [if_true, sortByRank]
    refine congrArg (fun sorted => Except.ok (_ ++ sorted)) (stableSort_congr fun a _ b _ => ?_)
    rw [allowedBy, compareOn, Bool.eq_iff_iff, decide_eq_true_eq, Nat.isLE_compare]
    rfl
  | false =>
    simp only [Bool.false_eq_true, if_false, arrangeByImportance_sorts hplain, List.filter_filter]
    refine congrArg (fun sorted => Except.ok (_ ++ sorted)) (stableSort_congr fun a _ b _ => ?_)
    simp only [vendorGroup, Bool.and_comm]

end Arranging

/-! ## Declarations of one name -/

/-- Records of one name with one mark tie if neither importance nor types count. -/
theorem declarationOrder_namesakes {α : Type} {o : Options} {view : α → Member} {items : List α}
    (himportance : o.sortByImportance = false) (htypes : o.groupByType = false) {a b : MemberInfo}
    (hname : a.name = b.name) (hoptional : a.optional = b.optional)
    (hmark : a.vendorPrefix = b.vendorPrefix) : declarationOrder o view items a b = .eq := by
  have hleads : leads o a = leads o b := by
    show (_ && Text.startsWith a.name _) = (_ && Text.startsWith b.name _)
    rw [hname]
  have hplace (marks : List String) : markPlace marks a = markPlace marks b := by
    rw [markPlace, markPlace, markOf, markOf, hmark]
  have hchain : memberOrder o a b = .eq := by
    have hsame : memberOrder o a b = memberOrder o b b := by
      simp only [memberOrder, compareLex, compareOn, hname, hoptional, htypes, Bool.false_eq_true, if_false]
    exact hsame.trans ReflCmp.compare_self
  unfold declarationOrder ahead
  rw [hleads]
  cases leads o b with
  | true => rfl
  | false =>
    cases o.groupByCategory with
    | true =>
      simp only [if_true, compareOn, hname]
      exact ReflCmp.compare_self
    | false =>
      simp [importanceOrder, markOrder, vendorGroup, byTest, compareLex, compareOn, himportance, hplace,
        hchain]

end MemberOrder.Order

namespace MemberOrder.Sorter

open MemberOrder.Order Std

/-- A declaration takes its vendor mark from its name and is not optional. -/
theorem declaration_marked {m : Member} (h : m.ReadFrom .css) (hleaf : m.children?.isNone = true) :
    m.info.vendorPrefix = Style.vendorMark? m.name ∧ m.info.optional = false := by
  obtain ⟨d, hheld⟩ := Style.held_of_readFrom h
  cases hheld.self with
  | declaration hcut hinfo =>
    obtain ⟨hmark, hoptional, -⟩ := Style.declarationInfo_marked hinfo
    exact ⟨hmark, hoptional⟩
  | step hnamed hstays => cases hleaf

/-- Without natural sorting, declarations are sorted once and never fail to be, by the order that puts
custom properties ahead, then goes by category alone or else by importance, by vendor mark and by the
comparison chain: the result is the stable sort by it, a permutation in which each declaration may precede
all that follow it, and declarations that tie keep their order. If neither importance nor types are
sorted by, declarations of one name that were read from style sheets keep their order. -/
theorem arrange_style_sorts (o : Options) (hplain : o.naturalSort = false)
    (context : Option EntityKind) (α : Type) (view : α → Member) (items : List α)
    (hitems : context = some .cssKeyframes →
      (items.head?.map fun x => (view x).children?.isSome) = some false) :
    ∃ r, Sorter.style.arrange o context view items = .ok r ∧
      r = stableSort (allowedBy (declarationOrder o view items) view) items ∧
      r.Perm items ∧
      r.Pairwise (fun a b => allowedBy (declarationOrder o view items) view a b = true) ∧
      (∀ i, r.filter (fun x => declarationOrder o view items i (view x).info == .eq) =
        items.filter fun x => declarationOrder o view items i (view x).info == .eq) ∧
      (o.sortByImportance = false → o.groupByType = false → (∀ x ∈ items, (view x).ReadFrom .css) →
        ∀ name, r.filter (fun x => (view x).children?.isNone && (view x).name == name) =
          items.filter fun x => (view x).children?.isNone && (view x).name == name) := by
  have harrange : Sorter.style.arrange o context view items = arrangeDeclarations o view items := by
    show arrangeStyle o context view items = _
    unfold arrangeStyle
    cases hcontext : context == some .cssKeyframes with
    | false => rfl
    | true => simp [hitems (eq_of_beq hcontext)]
  refine ⟨_, harrange.trans (arrangeDeclarations_sorts hplain items), rfl, stableSort_perm _ _,
    stableSort_isLE (fun x => (view x).info) items, fun i => stableSort_ties i items, ?_⟩
  intro himportance htypes hread name
  refine stableSort_filter_mem fun a ha b hb hpa hpb => ?_
  rw [Bool.and_eq_true, beq_iff_eq] at hpa hpb
  obtain ⟨hmarka, hoptionala⟩ := declaration_marked (hread a ha) hpa.1
  obtain ⟨hmarkb, hoptionalb⟩ := declaration_marked (hread b hb) hpb.1
  have hname : (view a).name = (view b).name := hpa.2.trans hpb.2.symm
  have htie : declarationOrder o view items (view a).info (view b).info = .eq :=
    declarationOrder_namesakes himportance htypes hname (hoptionala.trans hoptionalb.symm)
      (by rw [hmarka, hmarkb, hname])
  rw [allowedBy, htie]
  rfl

/-- A rule with a custom property, marks of three vendors and a color with a fallback. -/
def fallbackRule : Text := Text.ofString "a\x7bcolor:red;-y-a:1;--v:0;-moz-b:2;-x-c:3;color:blue;-y-d:4\x7d"

/-- The custom property comes first, then the mark that is well known, the others in the order in which
they appear, and the fallback stays before the color that overrides it. -/
theorem arrange_style_sorts_fallbacks :
    let o : Options := { fileType := .css, groupVendorPrefixes := true }
    let items := (readSource .css fallbackRule).entities.flatMap (·.members)
    o.naturalSort = false ∧
      (Sorter.style.arrange o (some .cssRule) id items).toOption.map (·.map (·.name)) =
        some ["--v", "-moz-b", "-y-a", "-y-d", "-x-c", "color", "color"] ∧
      ∃ r, Sorter.style.arrange o (some .cssRule) id items = .ok r ∧
        r = stableSort (allowedBy (declarationOrder o id items) id) items ∧
        r.filter (fun x => x.children?.isNone && x.name == "color") =
          items.filter fun x => x.children?.isNone && x.name == "color" := by
  intro o items
  have hnames : (Sorter.style.arrange o (some .cssRule) id items).toOption.map (·.map (·.name)) =
      some ["--v", "-moz-b", "-y-a", "-y-d", "-x-c", "color", "color"] := by
    decide +kernel
  have hread : ∀ x ∈ items, x.ReadFrom .css := by
    intro x hx
    obtain ⟨e, he, hx⟩ := List.mem_flatMap.mp hx
    exact ⟨.css, fallbackRule, rfl, e, he, e.span, e.members, .top, hx⟩
  obtain ⟨r, hr, hsorted, -, -, -, hkept⟩ :=
    arrange_style_sorts o rfl (some .cssRule) Member id items (fun h => nomatch h)
  exact ⟨rfl, hnames, r, hr, hsorted, hkept rfl rfl hread "color"⟩

end MemberOrder.Sorter
