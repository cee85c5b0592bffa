/-
  The order of members without natural sorting.

  Without natural sorting the comparison chain always answers, and it is the lexicographic order of a
  few keys (`memberOrder`), so it is transitive and compares any two members. The members of an object
  then end up `InTurn`: those with a custom place first, then group by group, each group by the chain
  (`arrangeEntries_inTurn`). Members that are in turn are left as they are (`arrangeEntries_self`).
-/
import MemberOrder.Proofs.Order.Permuting

namespace MemberOrder.Order

open Std

/-! ## Names -/

theorem compareChars_eq (a b : List Char) :
    compareChars a b = compare (a.map Char.toNat) (b.map Char.toNat) := by
  induction a generalizing b with
  | nil => cases b <;> rfl
  | cons x rest ih =>
    cases b with
    | nil => rfl
    | cons y rest' =>
      rw [compareChars, List.map_cons, List.map_cons, List.compare_cons_cons, ih rest']
      cases compare x.toNat y.toNat <;> rfl

/-- The key of a number; other names have none. -/
def numberKey (name : List Char) : Int := ((numericValue? name).map Binary64.key).getD 0

/-- The code points by which a name is compared that is no number. -/
def codesOf (name : List Char) : List Nat :=
  if (numericValue? name).isSome then [] else (stripQuotes name).map Char.toNat

theorem comparePlain_eq : comparePlain = compareLex (compareOn fun a => (numericValue? a).isNone)
    (compareLex (compareOn numberKey) (compareOn codesOf)) := by
  funext a b
  simp only [compareLex, compareOn, numberKey, codesOf]
  delta comparePlain
  cases numericValue? a with
  | none =>
    cases numericValue? b with
    | none => exact compareChars_eq _ _
    | some y => rfl
  | some x =>
    cases numericValue? b with
    | none => rfl
    | some y => exact Ordering.then_eq.symm

instance comparePlain_trans : TransCmp comparePlain := by
  rw [comparePlain_eq]
  infer_instance

instance directed_trans {α : Type} {cmp : α → α → Ordering} [TransCmp cmp] (o : Options) :
    TransCmp fun a b => directed o (cmp a b) := by
  cases h : o.isDescending with
  | false =>
    have hsame : (fun a b => directed o (cmp a b)) = cmp := by
      funext a b
      rw [directed, h]
      rfl
    rw [hsame]
    infer_instance
  | true =>
    have hswap : (fun a b => directed o (cmp a b)) = fun a b => cmp b a := by
      funext a b
      have hback : cmp a b = (cmp b a).swap := OrientedCmp.eq_swap
      rw [directed, h, if_pos rfl, hback, Ordering.swap_swap]
    rw [hswap]
    exact TransCmp.opposite

/-- Comparing by keys. -/
theorem transCmp_on {α κ : Type} (cmp : κ → κ → Ordering) [TransCmp cmp] (key : α → κ) :
    TransCmp fun a b => cmp (key a) (key b) where
  eq_swap := OrientedCmp.eq_swap
  isLE_trans := TransCmp.isLE_trans

/-- The text by which a name is compared. -/
def foldedName (o : Options) (name : String) : List Char :=
  (if o.caseSensitive then name else Text.lower name).toList

theorem compareNames_plain {o : Options} (h : o.naturalSort = false) (a b : String) :
    compareNames o a b = .ok (directed o (comparePlain (foldedName o a) (foldedName o b))) := by
  simp only [compareNames, compareAscending, h]
  rfl

/-- The order of names in the direction of the options. -/
def nameOrder (o : Options) (a b : MemberInfo) : Ordering :=
  directed o (comparePlain (foldedName o a.name) (foldedName o b.name))

instance nameOrder_trans (o : Options) : TransCmp (nameOrder o) :=
  have := transCmp_on comparePlain fun i : MemberInfo => foldedName o i.name
  directed_trans o

/-! ## The chain -/

theorem idxOf?_eq (names : List String) (a : String) :
    names.idxOf? a = if names.idxOf a < names.length then some (names.idxOf a) else none := by
  induction names with
  | nil => rfl
  | cons name rest ih =>
    rw [List.idxOf?_cons, List.idxOf_cons, ih]
    cases name == a with
    | true => simp
    | false =>
      simp only [Bool.false_eq_true, if_false, cond_false, List.length_cons,
        Nat.add_lt_add_iff_right]
      split <;> rfl

theorem idxOf_eq_length {names : List String} {a : String} (h : a ∉ names) :
    names.idxOf a = names.length :=
  Nat.le_antisymm List.idxOf_le_length (Nat.le_of_not_lt fun hlt => h (List.idxOf_lt_length_iff.mp hlt))

/-- A name without a place stands where the places end. -/
theorem compareRanks_idxOf (names : List String) (a b : String) :
    compareRanks (names.idxOf? a) (names.idxOf? b) = compare (names.idxOf a) (names.idxOf b) := by
  have ha := List.idxOf_le_length (l := names) (a := a)
  have hb := List.idxOf_le_length (l := names) (a := b)
  rw [idxOf?_eq, idxOf?_eq]
  split <;> split
  · rfl
  · exact (Nat.compare_eq_lt.mpr (by omega)).symm
  · exact (Nat.compare_eq_gt.mpr (by omega)).symm
  · exact (Nat.compare_eq_eq.mpr (by omega)).symm

/-- The comparison chain as a lexicographic order. -/
def memberOrder (o : Options) : MemberInfo → MemberInfo → Ordering :=
  compareLex (compareOn fun i => o.customOrder.idxOf i.name)
    (compareLex (compareOn fun i => o.prioritizeRequired && i.optional)
      (compareLex (compareOn fun i => if o.groupByType then (TypeGroup.ofMember i).rank else 0)
        fun a b => directed o (comparePlain (foldedName o a.name) (foldedName o b.name))))

instance memberOrder_trans (o : Options) : TransCmp (memberOrder o) := by
  have hnames := transCmp_on comparePlain fun i : MemberInfo => foldedName o i.name
  unfold memberOrder
  infer_instance

theorem compareMembers_plain {o : Options} (h : o.naturalSort = false) (a b : MemberInfo) :
    compareMembers o a b = .ok (memberOrder o a b) := by
  simp only [compareMembers, memberOrder, compareLex, compareOn, compareRanks_idxOf,
    compareNames_plain h]
  cases compare (o.customOrder.idxOf a.name) (o.customOrder.idxOf b.name) with
  | lt => rfl
  | gt => rfl
  | eq =>
    have hrequired : compare (o.prioritizeRequired && a.optional) (o.prioritizeRequired && b.optional) =
        if o.prioritizeRequired && a.optional != b.optional then
          if a.optional then Ordering.gt else Ordering.lt
        else .eq := by
      cases o.prioritizeRequired <;> cases a.optional <;> cases b.optional <;> rfl
    rw [hrequired]
    cases o.prioritizeRequired && a.optional != b.optional with
    | true => cases a.optional <;> rfl
    | false =>
      cases o.groupByType with
      | false => rfl
      | true =>
        simp only [Bool.false_eq_true, if_false, if_true, Ordering.then]
        cases compare (TypeGroup.ofMember a).rank (TypeGroup.ofMember b).rank <;> rfl

theorem allows_ok (r : Ordering) : allows (.ok r) = r.isLE := by
  cases r <;> rfl

/-! ## Sorting by the chain -/

section Sorting

variable {α : Type} {o : Options} (hplain : o.naturalSort = false) (view : α → Member)
include hplain

/-- Whether an item may stand before another one. -/
def mayPrecede (o : Options) (view : α → Member) (a b : α) : Bool :=
  (memberOrder o (view a).info (view b).info).isLE

theorem sortGroup_plain (items : List α) :
    sortGroup o view items = .ok (stableSort (mayPrecede o view) items) := by
  have hle : (fun a b => allows (compareMembers o (view a).info (view b).info)) =
      mayPrecede o view := by
    funext a b
    rw [compareMembers_plain hplain, allows_ok]
    rfl
  simp only [sortGroup, sortBy, hplain, Bool.false_eq_true, if_false, hle]

theorem eachGroup_plain (groups : List (List α)) :
    eachGroup (sortGroup o view) groups = .ok (groups.flatMap (stableSort (mayPrecede o view))) := by
  induction groups with
  | nil => rfl
  | cons group rest ih =>
    rw [eachGroup, sortGroup_plain hplain, ih]
    rfl

end Sorting

/-- Sorting by the order of some keys puts the keys in order. -/
theorem stableSort_isLE {α κ : Type} {order : κ → κ → Ordering} [TransCmp order] (key : α → κ)
    (items : List α) : (stableSort (fun a b => (order (key a) (key b)).isLE) items).Pairwise
      fun a b => (order (key a) (key b)).isLE = true := by
  refine stableSort_pairwise (fun a b => ?_) (fun a b c => TransCmp.isLE_trans) items
  have hswap : order (key a) (key b) = (order (key b) (key a)).swap := OrientedCmp.eq_swap
  rw [hswap]
  cases order (key b) (key a) <;> simp

theorem stableSort_mayPrecede {α : Type} (o : Options) (view : α → Member) (items : List α) :
    (stableSort (mayPrecede o view) items).Pairwise fun a b => mayPrecede o view a b = true :=
  stableSort_isLE (fun x => (view x).info) items

theorem sortByRank_pairwise {α : Type} (rank : α → Nat) (items : List α) :
    (sortByRank rank items).Pairwise fun a b => rank a ≤ rank b := by
  refine (stableSort_pairwise ?_ ?_ items).imp of_decide_eq_true
  · intro a b
    simp only [decide_eq_true_eq]
    omega
  · intro a b c
    simp only [decide_eq_true_eq]
    omega

/-! ## Groups in order -/

/-- Where what passes a test stands ahead, testing leaves the items as they are. -/
theorem filter_append_self {α : Type} {p : α → Bool} {items : List α}
    (h : items.Pairwise fun a b => p b = true → p a = true) :
    items.filter p ++ items.filter (fun x => !p x) = items := by
  induction items with
  | nil => rfl
  | cons x rest ih =>
    obtain ⟨hx, hrest⟩ := List.pairwise_cons.mp h
    cases hp : p x with
    | true => simp [hp, ih hrest]
    | false =>
      have hnone : ∀ y ∈ rest, p y = false := fun y hy =>
        Bool.eq_false_iff.mpr fun hpy => by simp [hx y hy hpy] at hp
      have hfirst : (x :: rest).filter p = [] := by simpa [hp] using hnone
      rw [hfirst, List.nil_append, List.filter_eq_self]
      intro y hy
      rcases List.mem_cons.mp hy with rfl | hy
      · rw [hp]
        rfl
      · rw [hnone y hy]
        rfl

/-- Of the items below the next rank, those below a rank and those at it. -/
theorem filter_rank_succ {α : Type} (rank : α → Nat) (items : List α) (n : Nat) :
    (items.filter (rank · < n + 1)).filter (rank · < n) = items.filter (rank · < n) ∧
      (items.filter (rank · < n + 1)).filter (fun x => !decide (rank x < n)) =
        items.filter (rank · == n) := by
  constructor
  · rw [List.filter_filter]
    refine List.filter_congr fun x _ => ?_
    simp only [← Bool.decide_and]
    exact decide_eq_decide.mpr (by omega)
  · rw [List.filter_filter]
    refine List.filter_congr fun x _ => ?_
    rw [Bool.eq_iff_iff]
    simp only [Bool.and_eq_true, Bool.not_eq_true', decide_eq_true_eq, decide_eq_false_iff_not,
      beq_iff_eq]
    omega

/-- Groups made by rank, one after the other, of items in order of rank. -/
theorem flatMap_ranks {α : Type} {rank : α → Nat} {items : List α}
    (h : items.Pairwise fun a b => rank a ≤ rank b) (n : Nat) :
    (List.range n).flatMap (fun k => items.filter (rank · == k)) = items.filter (rank · < n) := by
  induction n with
  | zero => simp
  | succ n ih =>
    obtain ⟨hbelow, hat⟩ := filter_rank_succ rank items n
    rw [List.range_succ, List.flatMap_append, ih, List.flatMap_singleton, ← hbelow, ← hat]
    refine filter_append_self ((h.filter _).imp fun {a b} hab => ?_)
    simp only [decide_eq_true_eq]
    omega

/-! ## Members of objects -/

/-- The place of a member's schema group, where groups are made. -/
def schemaPlace (o : Options) (i : MemberInfo) : Nat := if o.groupBySchema then schemaRank i else 0

/-- Of two members without a custom place, the first may come first. -/
def Remaining (o : Options) (a b : MemberInfo) : Prop :=
  schemaPlace o a ≤ schemaPlace o b ∧
    (schemaPlace o a = schemaPlace o b → (memberOrder o a b).isLE = true)

/-- Of two members of an object, the first may come first. -/
structure InTurn (o : Options) (a b : MemberInfo) : Prop where
  listed : o.customKeyOrder.idxOf a.name ≤ o.customKeyOrder.idxOf b.name
  remaining : a.name ∉ o.customKeyOrder → Remaining o a b

/-- Records that are ordered alike. -/
structure Alike (a b : MemberInfo) : Prop where
  name_eq : a.name = b.name
  optional_eq : a.optional = b.optional
  group_eq : TypeGroup.ofMember a = TypeGroup.ofMember b
  complex_eq : isComplex a = isComplex b

theorem Alike.schemaPlace_eq {a b : MemberInfo} (h : Alike a b) (o : Options) :
    schemaPlace o a = schemaPlace o b := by
  simp only [schemaPlace, schemaRank, h.name_eq, h.complex_eq]

theorem InTurn.alike_iff {o : Options} {a b a' b' : MemberInfo} (ha : Alike a a') (hb : Alike b b') :
    InTurn o a b ↔ InTurn o a' b' := by
  have horder : memberOrder o a b = memberOrder o a' b' := by
    simp only [memberOrder, compareLex, compareOn, ha.name_eq, hb.name_eq, ha.optional_eq,
      hb.optional_eq, ha.group_eq, hb.group_eq]
  have hremaining : Remaining o a b ↔ Remaining o a' b' := by
    rw [Remaining, Remaining, ha.schemaPlace_eq, hb.schemaPlace_eq, horder]
  constructor
  · rintro ⟨hlisted, h⟩
    rw [ha.name_eq, hb.name_eq] at hlisted
    rw [ha.name_eq, hremaining] at h
    exact ⟨hlisted, h⟩
  · rintro ⟨hlisted, h⟩
    rw [← ha.name_eq, ← hb.name_eq] at hlisted
    rw [← ha.name_eq, ← hremaining] at h
    exact ⟨hlisted, h⟩

section Entries

variable {α : Type} {o : Options} {view : α → Member}

/-- The members of one schema group. -/
def schemaGroup (view : α → Member) (items : List α) (rank : Nat) : List α :=
  items.filter fun x => schemaRank (view x).info == rank

theorem arrangeRemaining_plain (hplain : o.naturalSort = false) (items : List α) :
    arrangeRemaining o (.json o) view items = .ok (if o.groupBySchema then
        (List.range (schemaBuckets.length + 2)).flatMap fun rank =>
          stableSort (mayPrecede o view) (schemaGroup view items rank)
      else stableSort (mayPrecede o view) items) := by
  have hgroups : (EntryRules.json o).schemaGroups = o.groupBySchema := rfl
  unfold arrangeRemaining
  rw [hgroups]
  cases o.groupBySchema with
  | false => exact sortGroup_plain hplain view items
  | true =>
    simp only [Bool.not_true, Bool.false_eq_true, if_false, if_true, eachGroup_plain hplain,
      List.flatMap_map]
    rfl

theorem arrangeRemaining_remaining (hplain : o.naturalSort = false) {items r : List α}
    (h : arrangeRemaining o (.json o) view items = .ok r) :
    r.Pairwise fun a b => Remaining o (view a).info (view b).info := by
  rw [arrangeRemaining_plain hplain] at h
  cases h
  cases hgroups : o.groupBySchema with
  | false =>
    refine (stableSort_mayPrecede o view items).imp fun hab => ⟨?_, fun _ => hab⟩
    simp [schemaPlace, hgroups]
  | true =>
    have hmem : ∀ {k : Nat} {x : α}, x ∈ stableSort (mayPrecede o view) (schemaGroup view items k) →
        schemaPlace o (view x).info = k := by
      intro k x hx
      have hx := (List.mem_filter.mp ((stableSort_perm _ _).mem_iff.mp hx)).2
      rw [schemaPlace, if_pos hgroups]
      exact eq_of_beq hx
    rw [if_pos rfl, List.pairwise_flatMap]
    refine ⟨fun k _ => ?_, List.pairwise_lt_range.imp fun hkk x hx y hy => ?_⟩
    · refine (stableSort_mayPrecede o view _).imp_of_mem fun ha hb hab => ⟨?_, fun _ => hab⟩
      exact Nat.le_of_eq ((hmem ha).trans (hmem hb).symm)
    · have hx := hmem hx
      have hy := hmem hy
      exact ⟨by omega, fun heq => by omega⟩

theorem arrangeRemaining_self (hplain : o.naturalSort = false) {items : List α}
    (h : items.Pairwise fun a b => Remaining o (view a).info (view b).info) :
    arrangeRemaining o (.json o) view items = .ok items := by
  rw [arrangeRemaining_plain hplain]
  cases hgroups : o.groupBySchema with
  | false =>
    rw [if_neg (by decide), stableSort_self]
    refine h.imp fun hab => hab.2 ?_
    simp [schemaPlace, hgroups]
  | true =>
    have hplace : ∀ i, schemaPlace o i = schemaRank i := fun i => by rw [schemaPlace, if_pos hgroups]
    have hsorted : ∀ k, stableSort (mayPrecede o view) (schemaGroup view items k) =
        schemaGroup view items k := by
      intro k
      refine stableSort_self ((h.filter _).imp_of_mem fun ha hb hab => hab.2 ?_)
      rw [hplace, hplace, eq_of_beq (List.mem_filter.mp ha).2, eq_of_beq (List.mem_filter.mp hb).2]
    have hranks : items.Pairwise fun a b => schemaRank (view a).info ≤ schemaRank (view b).info :=
      h.imp fun {a b} hab => by
        rw [← hplace, ← hplace]
        exact hab.1
    rw [if_pos rfl, funext hsorted]
    unfold schemaGroup
    rw [flatMap_ranks hranks,
      List.filter_eq_self.mpr fun x _ => decide_eq_true (schemaRank_lt (view x).info)]

/-- Whether a member has a custom place. -/
def isListed (o : Options) (m : Member) : Bool := o.customKeyOrder.contains m.name

theorem isListed_iff {m : Member} : isListed o m = true ↔ m.info.name ∈ o.customKeyOrder :=
  List.contains_iff_mem

/-- The members with a custom place come before the others. -/
theorem arrangeEntries_object (hkeys : o.sortObjectKeys = true) (items : List α) :
    arrangeEntries o (.json o) false view items = (do
      let remaining ← arrangeRemaining o (.json o) view (items.filter fun x => !isListed o (view x))
      return sortByRank (fun x => o.customKeyOrder.idxOf (view x).name)
        (items.filter fun x => isListed o (view x)) ++ remaining) := by
  unfold arrangeEntries
  rw [if_neg (by decide), hkeys, if_neg (by decide)]
  rfl

/-- The members of an object end up in turn. -/
theorem arrangeEntries_inTurn (hplain : o.naturalSort = false) (hkeys : o.sortObjectKeys = true)
    {items r : List α} (h : arrangeEntries o (.json o) false view items = .ok r) :
    r.Pairwise fun a b => InTurn o (view a).info (view b).info := by
  rw [arrangeEntries_object hkeys] at h
  obtain ⟨remaining, hremaining, h⟩ := bind_ok h
  cases h
  have hlisted : ∀ x ∈ sortByRank (fun x => o.customKeyOrder.idxOf (view x).name)
      (items.filter fun x => isListed o (view x)), (view x).info.name ∈ o.customKeyOrder :=
    fun x hx => isListed_iff.mp (List.mem_filter.mp ((stableSort_perm _ _).mem_iff.mp hx)).2
  have hunlisted : ∀ x ∈ remaining, (view x).info.name ∉ o.customKeyOrder := by
    intro x hx hmem
    have hx := (List.mem_filter.mp ((arrangeRemaining_perm hremaining).mem_iff.mp hx)).2
    rw [isListed_iff.mpr hmem] at hx
    cases hx
  refine List.pairwise_append.mpr ⟨?_, ?_, fun x hx y hy => ?_⟩
  · refine (sortByRank_pairwise _ _).imp_of_mem fun ha _ hab => ⟨hab, fun hna => ?_⟩
    exact absurd (hlisted _ ha) hna
  · refine (arrangeRemaining_remaining hplain hremaining).imp_of_mem fun ha hb hab =>
      ⟨?_, fun _ => hab⟩
    exact Nat.le_of_eq
      ((idxOf_eq_length (hunlisted _ ha)).trans (idxOf_eq_length (hunlisted _ hb)).symm)
  · refine ⟨?_, fun hna => absurd (hlisted x hx) hna⟩
    rw [idxOf_eq_length (hunlisted y hy)]
    exact List.idxOf_le_length

/-- Members of an object that are in turn stay as they are. -/
theorem arrangeEntries_self (hplain : o.naturalSort = false) {items : List α}
    (h : o.sortObjectKeys = true → items.Pairwise fun a b => InTurn o (view a).info (view b).info) :
    arrangeEntries o (.json o) false view items = .ok items := by
  cases hkeys : o.sortObjectKeys with
  | false =>
    unfold arrangeEntries
    rw [if_neg (by decide), hkeys]
    rfl
  | true =>
    have h := h hkeys
    have hunlisted : (items.filter fun x => !isListed o (view x)).Pairwise fun a b =>
        Remaining o (view a).info (view b).info := by
      refine (h.filter _).imp_of_mem fun ha _ hab => hab.remaining fun hmem => ?_
      have ha := (List.mem_filter.mp ha).2
      rw [isListed_iff.mpr hmem] at ha
      cases ha
    have hlisted : (items.filter fun x => isListed o (view x)).Pairwise fun a b => decide
        (o.customKeyOrder.idxOf (view a).name ≤ o.customKeyOrder.idxOf (view b).name) = true :=
      (h.filter _).imp fun hab => decide_eq_true hab.listed
    have hahead : items.Pairwise fun a b => isListed o (view b) = true → isListed o (view a) = true := by
      refine h.imp fun hab hb => isListed_iff.mpr (List.idxOf_lt_length_iff.mp ?_)
      exact Nat.lt_of_le_of_lt hab.listed (List.idxOf_lt_length_iff.mpr (isListed_iff.mp hb))
    rw [arrangeEntries_object hkeys, arrangeRemaining_self hplain hunlisted, sortByRank,
      stableSort_self hlisted]
    show Except.ok (_ ++ _) = _
    rw [filter_append_self hahead]

end Entries

end MemberOrder.Order
