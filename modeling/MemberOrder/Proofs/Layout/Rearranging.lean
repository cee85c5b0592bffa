/-
  Rearranged members.

  Members are `Rearranged` when they are a permutation of others and so are their children, at any
  depth; nothing else about them changes. Laid out members have strictly increasing units, so their
  source order is found again from any rearrangement (`sourceOrder_infos`), and a rearrangement in
  which nothing is out of order is none (`reordered_iff`).
-/
import MemberOrder.Layout.Slots
import MemberOrder.Proofs.Order.Sorting
import MemberOrder.Proofs.Placement.Basic

namespace MemberOrder

mutual

/-- A member whose children are rearranged. -/
inductive Member.Rearranged : Member → Member → Prop
  | leaf (i : MemberInfo) : Member.Rearranged (.leaf i) (.leaf i)
  | group (i : MemberInfo) {children mid children' : List Member} (hperm : children.Perm mid)
      (h : EachRearranged mid children') :
      Member.Rearranged (.group i children) (.group i children')

/-- Members in the same order, the children of each rearranged. -/
inductive EachRearranged : List Member → List Member → Prop
  | nil : EachRearranged [] []
  | cons {m m' : Member} {rest rest' : List Member} (hm : m.Rearranged m')
      (hrest : EachRearranged rest rest') : EachRearranged (m :: rest) (m' :: rest')

end

/-- Members in any order, the children of each rearranged. -/
def Rearranged (ms ms' : List Member) : Prop := ∃ mid, ms.Perm mid ∧ EachRearranged mid ms'

mutual

theorem Member.Rearranged.refl (m : Member) : m.Rearranged m := by
  cases m with
  | leaf i => exact .leaf i
  | group i children => exact .group i (.refl children) (EachRearranged.refl children)

theorem EachRearranged.refl (ms : List Member) : EachRearranged ms ms := by
  cases ms with
  | nil => exact .nil
  | cons m rest => exact .cons (Member.Rearranged.refl m) (EachRearranged.refl rest)

end

theorem Rearranged.of_perm {ms ms' : List Member} (h : ms.Perm ms') : Rearranged ms ms' :=
  ⟨ms', h, EachRearranged.refl ms'⟩

theorem Rearranged.refl (ms : List Member) : Rearranged ms ms := .of_perm (.refl ms)

theorem Member.Rearranged.info_eq {m m' : Member} (h : m.Rearranged m') : m'.info = m.info := by
  cases h <;> rfl

theorem EachRearranged.map_info {ms ms' : List Member} (h : EachRearranged ms ms') :
    ms'.map Member.info = ms.map Member.info := by
  induction ms generalizing ms' with
  | nil =>
    cases h
    rfl
  | cons m rest ih =>
    cases h with
    | cons hm hrest => rw [List.map_cons, List.map_cons, hm.info_eq, ih hrest]

theorem Rearranged.infos_perm {ms ms' : List Member} (h : Rearranged ms ms') :
    (ms'.map Member.info).Perm (ms.map Member.info) := by
  obtain ⟨mid, hperm, heach⟩ := h
  rw [heach.map_info]
  exact (hperm.map _).symm

theorem Rearranged.isEmpty_eq {ms ms' : List Member} (h : Rearranged ms ms') : ms'.isEmpty = ms.isEmpty := by
  have := h.infos_perm.isEmpty_eq
  rwa [List.isEmpty_map, List.isEmpty_map] at this

/-- A rearranged member has the unit of a member that it comes from. -/
theorem Rearranged.unit_of_mem {ms ms' : List Member} (h : Rearranged ms ms') {m' : Member}
    (hm : m' ∈ ms') :
    ∃ m ∈ ms, m.info = m'.info ∧ m.unitStart = m'.unitStart ∧ m.unitStop = m'.unitStop := by
  have hinfo := h.infos_perm.mem_iff.mp (List.mem_map_of_mem hm)
  obtain ⟨m, hm, hinfo⟩ := List.mem_map.mp hinfo
  exact ⟨m, hm, hinfo, by simp only [Member.unitStart, hinfo], by simp only [Member.unitStop, hinfo]⟩

/-! ## Source order -/

/-- Two lists with the same items, one in order of `f` and the other strictly so, are the same. -/
theorem eq_of_perm_of_increasing {α : Type} (f : α → Nat) {xs ys : List α} (hperm : xs.Perm ys)
    (hxs : xs.Pairwise fun a b => f a ≤ f b) (hys : ys.Pairwise fun a b => f a < f b) : xs = ys := by
  refine List.Perm.eq_of_pairwise (fun a b ha hb hab hba => ?_) hxs
    (hys.imp fun h => Nat.le_of_lt h) hperm
  -- in the strict list items with one value are one item
  obtain ⟨before, after, rfl⟩ := List.append_of_mem (hperm.mem_iff.mp ha)
  obtain ⟨-, hafter, hbefore⟩ := List.pairwise_append.mp hys
  rcases List.mem_append.mp hb with hb | hb
  · have := hbefore b hb a List.mem_cons_self
    omega
  · rcases List.mem_cons.mp hb with rfl | hb
    · rfl
    · have := (List.pairwise_cons.mp hafter).1 b hb
      omega

/-- Where the unit of a record starts. -/
def MemberInfo.unitStart (i : MemberInfo) : Nat := (i.unit.map (·.start)).getD 0

variable {P : MemberInfo → Prop} {t : Text}

theorem LaidFrom.increasing {lo hi : Nat} {ms : List Member} (h : LaidFrom P t hi lo ms) :
    ms.Pairwise fun a b => a.unitStart < b.unitStart :=
  h.pairwise.imp_of_mem fun ha _ hab => Nat.lt_of_lt_of_le (h.of_mem ha).1.unit_lt hab

theorem LaidFrom.infos_increasing {lo hi : Nat} {ms : List Member} (h : LaidFrom P t hi lo ms) :
    (ms.map Member.info).Pairwise fun a b => a.unitStart < b.unitStart :=
  List.pairwise_map.mpr h.increasing

namespace Layout

theorem place_eq_insertSorted (m : Member) (ms : List Member) :
    sourceOrder.place m ms = Order.insertSorted (fun a b => a.unitStart ≤ b.unitStart) m ms := by
  induction ms with
  | nil => rfl
  | cons other rest ih =>
    simp only [sourceOrder.place, Order.insertSorted, ih, decide_eq_true_eq]

theorem sourceOrder_eq_stableSort (ms : List Member) :
    sourceOrder ms = Order.stableSort (fun a b => a.unitStart ≤ b.unitStart) ms := by
  induction ms with
  | nil => rfl
  | cons m rest ih =>
    rw [Order.stableSort, ← ih, ← place_eq_insertSorted]
    rfl

/-- The source order of rearranged members. -/
theorem sourceOrder_infos {lo hi : Nat} {ms ms' : List Member} (hlaid : LaidFrom P t hi lo ms)
    (h : Rearranged ms ms') : (sourceOrder ms').map Member.info = ms.map Member.info := by
  rw [sourceOrder_eq_stableSort]
  refine eq_of_perm_of_increasing MemberInfo.unitStart ?_ ?_ hlaid.infos_increasing
  · exact ((Order.stableSort_perm _ ms').map _).trans h.infos_perm
  · refine List.pairwise_map.mpr ((Order.stableSort_pairwise ?_ ?_ ms').imp of_decide_eq_true)
    · intro a b
      simp only [decide_eq_true_eq]
      omega
    · intro a b c
      simp only [decide_eq_true_eq]
      omega

/-! ## Being out of order -/

theorem pairwise_of_not_hasInversion {ms : List Member} (h : hasInversion ms = false) :
    ms.Pairwise fun a b => a.unitStart ≤ b.unitStart := by
  induction ms with
  | nil => exact .nil
  | cons m rest ih =>
    cases rest with
    | nil => exact List.pairwise_singleton _ _
    | cons next rest =>
      simp only [hasInversion, Bool.or_eq_false_iff, decide_eq_false_iff_not] at h
      have hrest := ih h.2
      refine .cons (fun b hb => ?_) hrest
      rcases List.mem_cons.mp hb with rfl | hb
      · omega
      · have := (List.pairwise_cons.mp hrest).1 b hb
        omega

theorem not_hasInversion_of_increasing {ms : List Member}
    (h : ms.Pairwise fun a b => a.unitStart < b.unitStart) : hasInversion ms = false := by
  induction ms with
  | nil => rfl
  | cons m rest ih =>
    obtain ⟨hm, hrest⟩ := List.pairwise_cons.mp h
    cases rest with
    | nil => rfl
    | cons next rest =>
      have := hm next List.mem_cons_self
      simp only [hasInversion, Bool.or_eq_false_iff, decide_eq_false_iff_not]
      exact ⟨by omega, ih hrest⟩

mutual

/-- Children that are laid out are in order. -/
theorem not_reorderedInside {m : Member} (h : m.LaidOut P t) : reorderedInside m = false := by
  cases m with
  | leaf i => rfl
  | group i children =>
    obtain ⟨-, span, unit, body, -, -, -, -, hlaid⟩ := h
    rw [reorderedInside, not_hasInversion_of_increasing hlaid.increasing]
    exact not_anyReordered fun m hm => (hlaid.of_mem hm).1

theorem not_anyReordered {ms : List Member} (h : ∀ m ∈ ms, m.LaidOut P t) :
    anyReordered ms = false := by
  cases ms with
  | nil => rfl
  | cons m rest =>
    rw [anyReordered, not_reorderedInside (h m List.mem_cons_self)]
    exact not_anyReordered fun m hm => h m (List.mem_cons_of_mem _ hm)

end

/-- A permutation in source order is none. -/
theorem perm_eq_of_not_hasInversion {lo hi : Nat} {ms mid ms' : List Member}
    (hlaid : LaidFrom P t hi lo ms) (hperm : ms.Perm mid) (heach : EachRearranged mid ms')
    (h : hasInversion ms' = false) : mid = ms := by
  have hinfos : (ms'.map Member.info).Pairwise fun a b => a.unitStart ≤ b.unitStart :=
    List.pairwise_map.mpr (pairwise_of_not_hasInversion h)
  rw [heach.map_info] at hinfos
  have hmid := List.pairwise_map.mp hinfos
  exact eq_of_perm_of_increasing Member.unitStart hperm.symm hmid hlaid.increasing

mutual

/-- A member whose children are in order is what it was. -/
theorem eq_of_not_reorderedInside {m m' : Member} (hlaid : m.LaidOut P t) (h : m.Rearranged m')
    (hr : reorderedInside m' = false) : m' = m := by
  cases h with
  | leaf i => rfl
  | group i hperm heach =>
    obtain ⟨-, span, unit, body, -, -, -, -, hlaid⟩ := hlaid
    rw [reorderedInside, Bool.or_eq_false_iff] at hr
    have hmid := perm_eq_of_not_hasInversion hlaid hperm heach hr.1
    rw [eq_of_not_anyReordered (fun m hm => (hlaid.of_mem (hperm.mem_iff.mpr hm)).1) heach hr.2, hmid]

theorem eq_of_not_anyReordered {ms ms' : List Member} (hlaid : ∀ m ∈ ms, m.LaidOut P t)
    (h : EachRearranged ms ms') (hr : anyReordered ms' = false) : ms' = ms := by
  cases h with
  | nil => rfl
  | cons hm hrest =>
    rw [anyReordered, Bool.or_eq_false_iff] at hr
    rw [eq_of_not_reorderedInside (hlaid _ List.mem_cons_self) hm hr.1,
      eq_of_not_anyReordered (fun m hm => hlaid m (List.mem_cons_of_mem _ hm)) hrest hr.2]

end

/-- A rearrangement is out of order when it changes something. -/
theorem reordered_iff {lo hi : Nat} {ms ms' : List Member} (hlaid : LaidFrom P t hi lo ms)
    (h : Rearranged ms ms') : reordered ms' = true ↔ ms' ≠ ms := by
  obtain ⟨mid, hperm, heach⟩ := h
  constructor
  · rintro hr rfl
    rw [reordered, not_hasInversion_of_increasing hlaid.increasing,
      not_anyReordered fun m hm => (hlaid.of_mem hm).1] at hr
    cases hr
  · intro hne
    refine (Bool.not_eq_false _).mp fun hr => hne ?_
    rw [reordered, Bool.or_eq_false_iff] at hr
    have hmid := perm_eq_of_not_hasInversion hlaid hperm heach hr.1
    rw [eq_of_not_anyReordered (fun m hm => (hlaid.of_mem (hperm.mem_iff.mpr hm)).1) heach hr.2, hmid]

/-! ## Bounds -/

/-- Units inside a body do not extend it. -/
theorem bounds_eq {body : Span} {ms ms' : List Member} (hlaid : LaidFrom P t body.stop body.start ms)
    (h : Rearranged ms ms') : bounds body ms' = (body.start, body.stop) := by
  have hinside : ∀ m ∈ ms', body.start ≤ m.unitStart ∧ m.unitStop ≤ body.stop := by
    intro m hm
    obtain ⟨m', hm', -, hstart, hstop⟩ := h.unit_of_mem hm
    rw [← hstart, ← hstop]
    exact (hlaid.of_mem hm').2
  clear h
  unfold bounds
  induction ms' with
  | nil => rfl
  | cons m rest ih =>
    obtain ⟨h1, h2⟩ := hinside m List.mem_cons_self
    simp only [List.foldl_cons, Nat.min_eq_left h1, Nat.max_eq_left h2]
    exact ih fun m hm => hinside m (List.mem_cons_of_mem _ hm)

end Layout

end MemberOrder
