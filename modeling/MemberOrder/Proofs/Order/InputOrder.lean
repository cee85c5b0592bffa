/-
  Sorted members do not depend on the order in which they were written.

  The generic sorter, the sorter of structs and the sorter of objects each put members in an order in
  which two of them may stand either way only if their names tie (`SettlesBy`). Members whose names
  never tie have one such order, so whatever permutation of them is arranged, the result is the same,
  and whether there is one does not depend on the permutation either (`SettlesBy.eq_of_perm`). What
  sorting a member inside gives goes with it, so the same holds of sorting as a whole; sorting gives a
  result exactly if every level has its names and, where sizes are compared, its sizes
  (`sortMembers_ignores_order`).
-/
import Mathlib.Data.List.Pairwise
import MemberOrder.Proofs.Order.FieldOrder
import MemberOrder.Proofs.Order.Resorting
import MemberOrder.Proofs.Placement.Reading

namespace MemberOrder.Order

open Std

/-! ## Orders in which only names tie -/

/-- The names of two members compare equal. -/
def NamesTie (o : Options) (a b : MemberInfo) : Prop := compareNames o a.name b.name = .ok .eq

/-- An arrangement permutes its items into an order of their records, in which only members whose names
tie may stand either way; and whether it does so does not depend on the order in which they come. -/
structure SettlesBy (o : Options) (le : MemberInfo → MemberInfo → Prop) (arrange : Arrangement) : Prop where
  antisymm {a b : MemberInfo} (hab : le a b) (hba : le b a) : NamesTie o a b
  perm {α : Type} {view : α → Member} {items r : List α} (h : arrange α view items = .ok r) : r.Perm items
  sorted {α : Type} {view : α → Member} {items r : List α} (h : arrange α view items = .ok r) :
    r.Pairwise fun a b => le (view a).info (view b).info
  total {α : Type} {view : α → Member} {items items' : List α} (hperm : items.Perm items')
    (h : ∃ r, arrange α view items = .ok r) : ∃ r, arrange α view items' = .ok r

section Plain

variable {o : Options} (hplain : o.naturalSort = false)
include hplain

theorem namesTie_iff {a b : MemberInfo} : NamesTie o a b ↔ nameOrder o a b = .eq := by
  rw [NamesTie, compareNames_nameOrder hplain, Except.ok.injEq]

/-- Items of which no two names tie have one order. -/
theorem SettlesBy.eq_of_perm {le : MemberInfo → MemberInfo → Prop} {arrange : Arrangement}
    (h : SettlesBy o le arrange) {α : Type} {view : α → Member} {items items' : List α}
    (hperm : items.Perm items')
    (hties : items.Pairwise fun a b => ¬NamesTie o (view a).info (view b).info) :
    (arrange α view items).toOption = (arrange α view items').toOption := by
  have hsymm : Std.Symm fun a b => ¬NamesTie o (view a).info (view b).info :=
    ⟨fun a b hab hba => hab ((namesTie_iff hplain).mpr
      (OrientedCmp.eq_symm ((namesTie_iff hplain).mp hba)))⟩
  have hsame {r r' : List α} (hr : arrange α view items = .ok r) (hr' : arrange α view items' = .ok r') :
      r = r' := by
    refine List.Perm.eq_of_pairwise (fun a b ha hb hab hba => ?_) (h.sorted hr) (h.sorted hr')
      ((h.perm hr).trans (hperm.trans (h.perm hr').symm))
    have ha : a ∈ items := (h.perm hr).mem_iff.mp ha
    have hb : b ∈ items := hperm.mem_iff.mpr ((h.perm hr').mem_iff.mp hb)
    by_contra hne
    exact hties.forall ha hb hne (h.antisymm hab hba)
  cases hr : arrange α view items with
  | ok r =>
    obtain ⟨r', hr'⟩ := h.total hperm ⟨r, hr⟩
    rw [hr', hsame hr hr']
  | error fault =>
    cases hr' : arrange α view items' with
    | error fault' => rfl
    | ok r' =>
      obtain ⟨r, hok⟩ := h.total hperm.symm ⟨r', hr'⟩
      rw [hr] at hok
      cases hok

/-! ## The sorters -/

omit hplain in
/-- What comes last in a lexicographic order ties where the order does. -/
theorem compareLex_tie {first second : MemberInfo → MemberInfo → Ordering} {a b : MemberInfo}
    (h : compareLex first second a b = .eq) : second a b = .eq :=
  (Ordering.then_eq_eq.mp h).2

omit hplain in
theorem nameOrder_of_memberOrder {a b : MemberInfo} (h : memberOrder o a b = .eq) : nameOrder o a b = .eq :=
  compareLex_tie (compareLex_tie (compareLex_tie h))

omit hplain in
theorem nameOrder_of_fieldOrder {a b : MemberInfo} (h : fieldOrder o a b = .eq) : nameOrder o a b = .eq := by
  have hstrategy : strategyOrder o a b = .eq := compareLex_tie (compareLex_tie (compareLex_tie h))
  unfold strategyOrder at hstrategy
  generalize o.structStrategy = strategy at hstrategy
  cases strategy with
  | byType => exact compareLex_tie hstrategy
  | bySize => exact compareLex_tie hstrategy
  | alphabetical => exact nameOrder_of_memberOrder hstrategy
  | preserveTags => exact nameOrder_of_memberOrder hstrategy

theorem sortGroup_settlesBy : SettlesBy o (fun a b => (memberOrder o a b).isLE)
    fun _ view items => sortGroup o view items where
  antisymm hab hba := (namesTie_iff hplain).mpr (nameOrder_of_memberOrder (OrientedCmp.isLE_antisymm hab hba))
  perm := sortGroup_perm
  sorted {α view items r} h := by
    rw [sortGroup_plain hplain] at h
    cases h
    exact stableSort_mayPrecede o view items
  total _ _ := ⟨_, sortGroup_plain hplain _ _⟩

theorem arrangeFields_settlesBy : SettlesBy o (fun a b => (fieldOrder o a b).isLE)
    fun _ view items => arrangeFields o view items where
  antisymm hab hba := (namesTie_iff hplain).mpr (nameOrder_of_fieldOrder (OrientedCmp.isLE_antisymm hab hba))
  perm := arrangeFields_perm
  sorted {α view items r} h := by
    have hsorts : SortsAs (compareFields o) view items (arrangeFields o view items) :=
      arrangeFields_sortsAs hplain items
    have hsorted := stableSort_before_pairwise hplain (hsorts.answers.mp ⟨r, h⟩)
    rw [← hsorts.eq r h] at hsorted
    refine hsorted.imp fun {a b} hab => ?_
    obtain ⟨c, hc, hle⟩ := hab
    rw [(compareFields_answers hplain ⟨c, hc⟩).1] at hc
    exact Except.ok.inj hc ▸ hle
  total {α view items items'} hperm h := by
    refine (arrangeFields_sortsAs hplain items').answers.mpr ?_
    refine (hperm.pairwise_iff fun {a b} hab => ?_).mp ((arrangeFields_sortsAs hplain items).answers.mp h)
    exact ⟨_, (compareFields_answers hplain hab).2⟩

theorem arrangeEntries_settlesBy (hkeys : o.sortObjectKeys = true) : SettlesBy o (InTurn o)
    fun _ view items => arrangeEntries o (.json o) false view items where
  antisymm {a b} hab hba := by
    have hplace : o.customKeyOrder.idxOf a.name = o.customKeyOrder.idxOf b.name :=
      Nat.le_antisymm hab.listed hba.listed
    by_cases hlisted : a.name ∈ o.customKeyOrder
    · -- one place has one name
      have hname : a.name = b.name := (List.idxOf_inj hlisted).mp hplace
      have hsame : nameOrder o a b = nameOrder o b b := by
        rw [nameOrder, nameOrder, hname]
      rw [namesTie_iff hplain, hsame]
      exact ReflCmp.compare_self
    · have hunlisted : b.name ∉ o.customKeyOrder := fun hb => by
        rw [idxOf_eq_length hlisted] at hplace
        exact absurd (List.idxOf_lt_length_iff.mpr hb) (by omega)
      obtain ⟨hle, htie⟩ := hab.remaining hlisted
      obtain ⟨hle', htie'⟩ := hba.remaining hunlisted
      have hgroup := Nat.le_antisymm hle hle'
      exact (namesTie_iff hplain).mpr
        (nameOrder_of_memberOrder (OrientedCmp.isLE_antisymm (htie hgroup) (htie' hgroup.symm)))
  perm := arrangeEntries_perm
  sorted := arrangeEntries_inTurn hplain hkeys
  total {α view items items'} _ _ := by
    rw [arrangeEntries_object hkeys, arrangeRemaining_plain hplain]
    exact ⟨_, rfl⟩

end Plain

end MemberOrder.Order

namespace MemberOrder.Sorter

open MemberOrder.Order

/-- The generic sorter, the sorter of structs, and the sorter of JSON where it sorts the keys of an
object. -/
def SortsNames (sorter : Sorter) (o : Options) (context : Option EntityKind) : Prop :=
  match sorter with
  | .generic | .struct => True
  | .json => o.sortObjectKeys = true ∧ (context.map (·.isArray)).getD false = false
  | .script | .style | .yaml => False

variable {sorter : Sorter} {o : Options} {context : Option EntityKind} {entity : Option String}
  {checksNames : Bool}

theorem SortsNames.mem (h : sorter.SortsNames o context) : sorter ∈ [.generic, .struct, .json] := by
  cases sorter with
  | generic => decide
  | struct => decide
  | json => decide
  | script => exact h.elim
  | style => exact h.elim
  | yaml => exact h.elim

theorem arrange_settlesBy (hplain : o.naturalSort = false) (hsorter : sorter.SortsNames o context) :
    ∃ le, SettlesBy o le fun _ view items => sorter.arrange o context view items := by
  cases sorter with
  | generic => exact ⟨_, sortGroup_settlesBy hplain⟩
  | struct => exact ⟨_, arrangeFields_settlesBy hplain⟩
  | json =>
    obtain ⟨hkeys, hobject⟩ := hsorter
    refine ⟨InTurn o, ?_⟩
    simp only [arrange, hobject]
    exact arrangeEntries_settlesBy hplain hkeys
  | script => exact hsorter.elim
  | style => exact hsorter.elim
  | yaml => exact hsorter.elim

/-! ## One level -/

theorem refill_of_noSpreads {α : Type} {view : α → Member} {items arranged : List α}
    (h : ∀ x ∈ items, (view x).info.isSpread = false) (hlength : arranged.length = items.length) :
    refill view items arranged = arranged := by
  induction items generalizing arranged with
  | nil => exact (List.eq_nil_of_length_eq_zero hlength).symm
  | cons x rest ih =>
    obtain ⟨hx, hrest⟩ := List.forall_mem_cons.mp h
    cases arranged with
    | nil => cases hlength
    | cons y others =>
      rw [refill, hx, if_neg (by decide)]
      exact congrArg (y :: ·) (ih hrest (Nat.succ.inj hlength))

theorem arrangeAround_of_noSpreads {α : Type} {view : α → Member} {items : List α}
    (h : ∀ x ∈ items, (view x).info.isSpread = false) :
    sorter.arrangeAround o context view items = sorter.arrange o context view items := by
  have hall : (items.filter fun x => !(view x).info.isSpread) = items :=
    List.filter_eq_self.mpr fun x hx => by rw [h x hx]; rfl
  rw [arrangeAround, hall]
  cases harranged : sorter.arrange o context view items with
  | error fault => rfl
  | ok r => exact congrArg Except.ok (refill_of_noSpreads h (arrange_perm harranged).length_eq)

/-- The same items in another order, no spreads and no two names tying, come out alike. -/
theorem arrangeLevel_eq_of_perm (hplain : o.naturalSort = false) (hsorter : sorter.SortsNames o context)
    {items items' : List Nested} (hperm : items.Perm items')
    (hspreads : ∀ x ∈ items, x.1.info.isSpread = false)
    (hties : items.Pairwise fun x y => ¬NamesTie o x.1.info y.1.info) :
    (sorter.arrangeLevel o context entity checksNames items).toOption =
      (sorter.arrangeLevel o context entity checksNames items').toOption := by
  have hsteps : sorter = .style → context ≠ some .cssKeyframes := by
    rintro rfl
    exact hsorter.elim
  by_cases hnames : checksNames = true → ∀ x ∈ items, x.1.info.hasName = true
  · have hnames' : checksNames = true → ∀ x ∈ items', x.1.info.hasName = true :=
      fun hchecks x hx => hnames hchecks x (hperm.mem_iff.mpr hx)
    obtain ⟨le, hsettles⟩ := arrange_settlesBy hplain hsorter
    have hsame := hsettles.eq_of_perm hplain hperm hties
    rw [arrangeLevel_eq hsteps hnames, arrangeLevel_eq hsteps hnames', arrangeAround_of_noSpreads hspreads,
      arrangeAround_of_noSpreads fun x hx => hspreads x (hperm.mem_iff.mpr hx)]
    cases hr : sorter.arrange o context Prod.fst items with
    | error fault =>
      cases hr' : sorter.arrange o context Prod.fst items' with
      | error fault' => rfl
      | ok r' => simp [hr, hr', Except.toOption] at hsame
    | ok r =>
      cases hr' : sorter.arrange o context Prod.fst items' with
      | error fault' => simp [hr, hr', Except.toOption] at hsame
      | ok r' =>
        obtain rfl : r = r' := by simpa [hr, hr', Except.toOption] using hsame
        rfl
  · have hnone {items : List Nested} (hnot : ¬(checksNames = true → ∀ x ∈ items, x.1.info.hasName = true)) :
        (sorter.arrangeLevel o context entity checksNames items).toOption = none := by
      cases h : sorter.arrangeLevel o context entity checksNames items with
      | error err => rfl
      | ok r => exact absurd (arrangeLevel_named h) hnot
    rw [hnone hnames, hnone fun h => hnames fun hchecks x hx => h hchecks x (hperm.mem_iff.mp hx)]

/-! ## When there is a result -/

/-- Members have their names where these are checked, and no two fields of a struct, spreads apart, have
to be compared by sizes of which one cannot be told. -/
structure Arrangeable (sorter : Sorter) (o : Options) (checksNames : Bool) (ms : List Member) : Prop where
  names (hchecks : checksNames = true) : ∀ m ∈ ms, m.info.hasName = true
  sizes (hstruct : sorter = .struct) : (ms.filter fun m => !m.info.isSpread).Pairwise
    fun a b => Answers (compareFields o) a.info b.info

theorem Arrangeable.nil : Arrangeable sorter o checksNames [] where
  names _ _ hm := absurd hm List.not_mem_nil
  sizes _ := .nil

/-- The children of a member can be arranged. -/
def ChildrenArrangeable (sorter : Sorter) (o : Options) : Member → Prop
  | .leaf _ => True
  | .group _ children => Arrangeable sorter o (!sorter.isDocumentWide) children

theorem arrange_ok_iff (hplain : o.naturalSort = false) (hsorter : sorter ∈ [.generic, .struct, .json])
    {α : Type} {view : α → Member} {items : List α} :
    (∃ r, sorter.arrange o context view items = .ok r) ↔
      (sorter = .struct → items.Pairwise fun a b => Answers (compareFields o) (view a).info (view b).info) := by
  cases sorter with
  | generic => exact ⟨fun _ h => (by cases h), fun _ => ⟨_, sortGroup_plain hplain view items⟩⟩
  | struct =>
    have hsorts : SortsAs (compareFields o) view items (arrangeFields o view items) :=
      arrangeFields_sortsAs hplain items
    exact ⟨fun h _ => hsorts.answers.mp h, fun h => hsorts.answers.mpr (h rfl)⟩
  | json =>
    refine ⟨fun _ h => (by cases h), fun _ => ?_⟩
    unfold arrange arrangeEntries
    simp only [arrangeRemaining_plain hplain, sortBy_eq hplain]
    split
    · split <;> exact ⟨_, rfl⟩
    · split <;> exact ⟨_, rfl⟩
  | script => simp at hsorter
  | style => simp at hsorter
  | yaml => simp at hsorter

theorem arrangeAround_ok_iff {α : Type} {view : α → Member} {items : List α} :
    (∃ r, sorter.arrangeAround o context view items = .ok r) ↔
      ∃ r, sorter.arrange o context view (items.filter fun x => !(view x).info.isSpread) = .ok r := by
  unfold arrangeAround
  cases sorter.arrange o context view (items.filter fun x => !(view x).info.isSpread) with
  | error fault =>
    constructor
    · rintro ⟨r, hr⟩
      cases hr
    · rintro ⟨r, hr⟩
      cases hr
  | ok r => exact ⟨fun _ => ⟨r, rfl⟩, fun _ => ⟨_, rfl⟩⟩

theorem arrangeLevel_ok_iff (hplain : o.naturalSort = false) (hsorter : sorter ∈ [.generic, .struct, .json])
    {items : List Nested} :
    (∃ r, sorter.arrangeLevel o context entity checksNames items = .ok r) ↔
      Arrangeable sorter o checksNames (items.map Prod.fst) ∧ ∀ x ∈ items, ∃ m', x.2 = .ok m' := by
  have hsteps : sorter = .style → context ≠ some .cssKeyframes := by
    rintro rfl
    simp at hsorter
  have hsizes : (∃ ordered, sorter.arrangeAround o context Prod.fst items = .ok ordered) ↔
      (sorter = .struct → ((items.map Prod.fst).filter fun m => !m.info.isSpread).Pairwise
        fun a b => Answers (compareFields o) a.info b.info) := by
    rw [arrangeAround_ok_iff, arrange_ok_iff hplain hsorter, List.filter_map, List.pairwise_map]
    rfl
  constructor
  · rintro ⟨r, hr⟩
    obtain ⟨ordered, hordered, hinside⟩ := arrangeLevel_ok hr
    refine ⟨⟨fun hchecks m hm => ?_, hsizes.mp ⟨ordered, hordered⟩⟩, fun x hx => ?_⟩
    · obtain ⟨x, hx, rfl⟩ := List.mem_map.mp hm
      exact arrangeLevel_named hr hchecks x hx
    · exact exists_of_mapM hinside ((arrangeAround_perm hordered).mem_iff.mpr hx)
  · rintro ⟨hlevel, hinside⟩
    obtain ⟨ordered, hordered⟩ := hsizes.mpr hlevel.sizes
    obtain ⟨r, hr⟩ := mapM_ok fun x hx => hinside x ((arrangeAround_perm hordered).mem_iff.mp hx)
    refine ⟨r, ?_⟩
    rw [arrangeLevel_eq hsteps fun hchecks x hx => hlevel.names hchecks _ (List.mem_map_of_mem hx),
      hordered]
    exact hr

mutual

/-- A member is sorted inside exactly if the children of each member inside it can be arranged. -/
theorem sortInside_ok_iff (hplain : o.naturalSort = false) (hsorter : sorter ∈ [.generic, .struct, .json])
    (m : Member) :
    (∃ m', sortInside sorter o entity m = .ok m') ↔ m.Throughout (ChildrenArrangeable sorter o) := by
  cases m with
  | leaf i => exact ⟨fun _ => trivial, fun _ => ⟨_, rfl⟩⟩
  | group i children =>
    have hlevel : (∃ r, sorter.arrangeLevel o (sorter.childContext i) entity (!sorter.isDocumentWide)
        (sortEachInside sorter o entity children) = .ok r) ↔
        Arrangeable sorter o (!sorter.isDocumentWide) children ∧
          EachThroughout (ChildrenArrangeable sorter o) children := by
      rw [arrangeLevel_ok_iff hplain hsorter, sortEachInside_eq_beside, map_fst_beside,
        ← sortEachInside_ok_iff hplain hsorter children, beside, List.forall_mem_map]
    rw [sortInside, Member.Throughout, ChildrenArrangeable, ← hlevel]
    cases children with
    | nil => exact ⟨fun _ => hlevel.mpr ⟨.nil, trivial⟩, fun _ => ⟨_, rfl⟩⟩
    | cons first rest =>
      rw [List.isEmpty_cons, if_neg (by decide)]
      constructor
      · rintro ⟨m', hm'⟩
        obtain ⟨sorted, hsorted, -⟩ := bind_ok hm'
        exact ⟨sorted, hsorted⟩
      · rintro ⟨sorted, hsorted⟩
        rw [hsorted]
        exact ⟨_, rfl⟩

/-- Each of some members is sorted inside exactly if the same holds of all of them. -/
theorem sortEachInside_ok_iff (hplain : o.naturalSort = false)
    (hsorter : sorter ∈ [.generic, .struct, .json]) (ms : List Member) :
    (∀ m ∈ ms, ∃ m', sortInside sorter o entity m = .ok m') ↔
      EachThroughout (ChildrenArrangeable sorter o) ms := by
  cases ms with
  | nil => simp [EachThroughout]
  | cons m rest =>
    rw [List.forall_mem_cons, sortInside_ok_iff hplain hsorter m, sortEachInside_ok_iff hplain hsorter rest,
      EachThroughout]

end

/-! ## Sorting -/

/-- The generic sorter, the sorter of structs and, for objects whose keys are sorted, the sorter of JSON
give the same for every permutation of members that have no spreads and no two tying names. They give a
list exactly if every level that is sorted has its names and the sizes that have to be compared. -/
theorem sortMembers_ignores_order (sorter : Sorter) (o : Options) (entity : Option (EntityKind × String))
    (as bs : List Member) (hsorter : sorter.SortsNames o (entity.map (·.1))) (hplain : o.naturalSort = false)
    (hperm : as.Perm bs) (hspreads : ∀ m ∈ as, m.info.isSpread = false)
    (hties : as.Pairwise fun a b => compareNames o a.name b.name ≠ .ok .eq) :
    (sorter.sortMembers o entity as).toOption = (sorter.sortMembers o entity bs).toOption ∧
    ((∃ r, sorter.sortMembers o entity as = .ok r ∧ sorter.sortMembers o entity bs = .ok r) ↔
      Arrangeable sorter o true as ∧
        (o.sortNestedObjects = true → EachThroughout (ChildrenArrangeable sorter o) as)) := by
  by_cases hne : as = []
  · subst hne
    obtain rfl := hperm.nil_eq
    exact ⟨rfl, fun _ => ⟨.nil, fun _ => trivial⟩, fun _ => ⟨[], rfl, rfl⟩⟩
  have hne' : bs ≠ [] := fun h => hne (h ▸ hperm).eq_nil
  rw [sortMembers_eq hne, sortMembers_eq hne']
  generalize hsort : (if o.sortNestedObjects then
    sortInside sorter o (if sorter.isDocumentWide then entity.map (·.2) else none) else .ok) = inside
  have hsame : (sorter.arrangeLevel o (entity.map (·.1)) (entity.map (·.2)) true
      (beside inside as)).toOption = (sorter.arrangeLevel o (entity.map (·.1)) (entity.map (·.2)) true
      (beside inside bs)).toOption :=
    arrangeLevel_eq_of_perm hplain hsorter (hperm.map _) (List.forall_mem_map.mpr hspreads)
      (List.pairwise_map.mpr hties)
  have hinside : (∀ m ∈ as, ∃ m', inside m = .ok m') ↔
      (o.sortNestedObjects = true → EachThroughout (ChildrenArrangeable sorter o) as) := by
    rw [← hsort]
    cases o.sortNestedObjects with
    | false => exact ⟨fun _ h => (by cases h), fun _ m _ => ⟨m, rfl⟩⟩
    | true =>
      rw [if_pos rfl, sortEachInside_ok_iff hplain hsorter.mem]
      exact ⟨fun h _ => h, fun h => h rfl⟩
  have hreturns : (∃ r, sorter.arrangeLevel o (entity.map (·.1)) (entity.map (·.2)) true
      (beside inside as) = .ok r) ↔ Arrangeable sorter o true as ∧
        (o.sortNestedObjects = true → EachThroughout (ChildrenArrangeable sorter o) as) := by
    rw [arrangeLevel_ok_iff hplain hsorter.mem, map_fst_beside, beside, List.forall_mem_map, hinside]
  rw [← hreturns]
  refine ⟨hsame, ?_, ?_⟩
  · rintro ⟨r, hr, -⟩
    exact ⟨r, hr⟩
  · rintro ⟨r, hr⟩
    refine ⟨r, hr, ?_⟩
    rw [hr] at hsame
    exact ok_of_toOption hsame.symm

/-- Fields of two tag patterns and an untagged one. -/
def taggedFields : List Member :=
  [.leaf { name := "a" }, .leaf { name := "B", structTags := some "json:\"b\"" },
    .leaf { name := "C", structTags := some "json:\"c\" db:\"c\"" }]

/-- The groups are made in the order of their patterns, not in the order in which they are first seen. -/
theorem sortMembers_ignores_order_tagged :
    let o : Options := { fileType := .go, structStrategy := .preserveTags }
    (Sorter.struct.sortMembers o none taggedFields).toOption.map (·.map Member.name) =
      some ["C", "B", "a"] ∧
    (Sorter.struct.sortMembers o none taggedFields).toOption =
      (Sorter.struct.sortMembers o none taggedFields.reverse).toOption :=
  ⟨by decide, (sortMembers_ignores_order .struct { fileType := .go, structStrategy := .preserveTags }
    none taggedFields taggedFields.reverse trivial rfl (List.reverse_perm _).symm (by decide) (by decide)).1⟩

end MemberOrder.Sorter
