/-
  Sorting leaves sequences alone.

  Members are `Turned` when they are a permutation of others, but for the items of sequences, which stay
  in order, at any depth. With arrays left in order that is what sorting the members of a document makes
  of them, if no anchor is lifted over an item: none is where no item shows the mark of an alias with a name
  that an item below it shows with the mark of an anchor (`sortMembers_turned`).
-/
import MemberOrder.Proofs.Json.Sorting
import MemberOrder.Proofs.Order.Bindings
import MemberOrder.Proofs.Placement.Reading

namespace MemberOrder

mutual

/-- A member whose children are rearranged, but for the items of sequences. -/
inductive Member.Turned : Member → Member → Prop
  | leaf (i : MemberInfo) : Member.Turned (.leaf i) (.leaf i)
  | group (i : MemberInfo) {children mid children' : List Member} (hperm : children.Perm mid)
      (hkept : i.container = .brackets → mid = children) (h : EachTurned mid children') :
      Member.Turned (.group i children) (.group i children')

/-- Members in the same order, the children of each rearranged, but for the items of sequences. -/
inductive EachTurned : List Member → List Member → Prop
  | nil : EachTurned [] []
  | cons {m m' : Member} {rest rest' : List Member} (hm : m.Turned m')
      (hrest : EachTurned rest rest') : EachTurned (m :: rest) (m' :: rest')

end

/-- Members in any order, or in the same if they are items. -/
def Turned (areItems : Bool) (ms ms' : List Member) : Prop :=
  ∃ mid, ms.Perm mid ∧ (areItems = true → mid = ms) ∧ EachTurned mid ms'

mutual

theorem Member.Turned.refl (m : Member) : m.Turned m := by
  cases m with
  | leaf i => exact .leaf i
  | group i children => exact .group i (.refl children) (fun _ => rfl) (EachTurned.refl children)

theorem EachTurned.refl (ms : List Member) : EachTurned ms ms := by
  cases ms with
  | nil => exact .nil
  | cons m rest => exact .cons (Member.Turned.refl m) (EachTurned.refl rest)

end

theorem Turned.refl (areItems : Bool) (ms : List Member) : Turned areItems ms ms :=
  ⟨ms, .refl ms, fun _ => rfl, .refl ms⟩

mutual

theorem Member.Turned.rearranged {m m' : Member} (h : m.Turned m') : m.Rearranged m' := by
  cases h with
  | leaf i => exact .leaf i
  | group i hperm _ heach => exact .group i hperm heach.rearranged

theorem EachTurned.rearranged {ms ms' : List Member} (h : EachTurned ms ms') :
    EachRearranged ms ms' := by
  cases h with
  | nil => exact .nil
  | cons hm hrest => exact .cons hm.rearranged hrest.rearranged

end

theorem Turned.rearranged {areItems : Bool} {ms ms' : List Member} (h : Turned areItems ms ms') :
    Rearranged ms ms' := by
  obtain ⟨mid, hperm, -, heach⟩ := h
  exact ⟨mid, hperm, heach.rearranged⟩

/-- Items that stay in order where arrays are left in order: no anchor is lifted over one of them. -/
structure ItemsStay (o : Options) (ms : List Member) : Prop where
  unspread : ∀ m ∈ ms, m.info.isSpread = false
  noneAhead : o.preserveAnchorsAndAliases = true → NoneAhead ms

/-- The children of a member stay in order if they are items. -/
def ChildrenStay (o : Options) (m : Member) : Prop := m.info.container = .brackets → ItemsStay o m.children

namespace Sorter

open MemberOrder.Order

variable {o : Options}

/-! ## Levels -/

/-- Items in an array are left in order. -/
theorem arrangeAround_kept {α : Type} (harrays : o.preserveArrayOrder = true) {kind : EntityKind}
    (hkind : kind.isArray = true) {view : α → Member} {items : List α}
    (hstay : ItemsStay o (items.map view)) :
    Sorter.yaml.arrangeAround o (some kind) view items = .ok items := by
  have hunspread : ∀ x ∈ items, (view x).info.isSpread = false := fun x hx =>
    hstay.unspread _ (List.mem_map_of_mem hx)
  have hall : (items.filter fun x => !(view x).info.isSpread) = items := by
    refine List.filter_eq_self.mpr fun x hx => ?_
    rw [hunspread x hx]
    rfl
  have harrange : Sorter.yaml.arrange o (some kind) view items = .ok items := by
    have hentries : arrangeEntries o (.yaml o) true view items = .ok items := by
      rw [arrangeEntries, if_pos rfl, harrays, if_pos rfl]
    show arrangeYaml o kind.isArray view items = _
    rw [arrangeYaml, hkind, hentries]
    cases hpreserve : o.preserveAnchorsAndAliases with
    | false => rfl
    | true =>
      show Except.ok (anchorsFirst view items) = _
      rw [anchorsFirst_self (hstay.noneAhead hpreserve)]
  unfold arrangeAround
  rw [hall, harrange]
  show Except.ok (refill view items items) = _
  rw [Json.refill_unspread hunspread rfl]

/-- Members beside what turning them inside gave, if it gave anything. -/
def TurnedInside (items : List Nested) : Prop := ∀ x ∈ items, ∀ m', x.2 = .ok m' → x.1.Turned m'

/-- A level that is arranged is turned. -/
theorem arrangeLevel_turned (harrays : o.preserveArrayOrder = true) {kind : EntityKind} {entity : Option String}
    {checksNames : Bool} {items : List Nested}
    (hstay : kind.isArray = true → ItemsStay o (items.map Prod.fst)) (hinside : TurnedInside items)
    {r : List Member} (h : Sorter.yaml.arrangeLevel o (some kind) entity checksNames items = .ok r) :
    Turned kind.isArray (items.map Prod.fst) r := by
  obtain ⟨ordered, hordered, h⟩ := arrangeLevel_ok h
  have hperm := arrangeAround_perm hordered
  refine ⟨ordered.map Prod.fst, (hperm.map Prod.fst).symm, fun hkind => ?_,
    each_of_mapM .nil .cons (fun x hx => hinside x (hperm.mem_iff.mp hx)) h⟩
  rw [arrangeAround_kept harrays hkind (hstay hkind)] at hordered
  rw [Except.ok.inj hordered]

/-! ## All depths -/

/-- Members are turned inside in the order in which they stand. -/
theorem map_fst_sortEachInside (entity : Option String) (ms : List Member) :
    (sortEachInside .yaml o entity ms).map Prod.fst = ms :=
  (sortEachInside_spec entity ms).2

/-- The context of the children of a member is an array where brackets stand around them, and only there. -/
theorem childContext_yaml (i : MemberInfo) : ∃ kind, Sorter.yaml.childContext i = some kind ∧
    (i.container = .brackets ↔ kind.isArray = true) := by
  refine ⟨_, rfl, ?_⟩
  cases i.container <;> decide

mutual

/-- A member that is sorted inside is turned. -/
theorem sortInside_turned (harrays : o.preserveArrayOrder = true) {entity : Option String} (m : Member)
    (hstay : m.Throughout (ChildrenStay o)) {m' : Member} (h : sortInside .yaml o entity m = .ok m') :
    m.Turned m' := by
  match m with
  | .leaf i =>
    cases h
    exact .leaf i
  | .group i children =>
    rw [sortInside] at h
    split at h
    · cases h
      exact .refl _
    · obtain ⟨sorted, hsorted, h⟩ := bind_ok h
      cases h
      obtain ⟨kind, hcontext, hkind⟩ := childContext_yaml i
      have hinside : TurnedInside (sortEachInside .yaml o entity children) :=
        sortEachInside_turned harrays children (eachThroughout_iff.mp hstay.2)
      have hfst := map_fst_sortEachInside (o := o) entity children
      have hitems : kind.isArray = true →
          ItemsStay o ((sortEachInside .yaml o entity children).map Prod.fst) := by
        rw [hfst]
        exact fun h => hstay.1 (hkind.mpr h)
      rw [hcontext] at hsorted
      obtain ⟨mid, hperm, hkept, heach⟩ := arrangeLevel_turned harrays hitems hinside hsorted
      rw [hfst] at hperm hkept
      exact .group i hperm (fun h => hkept (hkind.mp h)) heach

theorem sortEachInside_turned (harrays : o.preserveArrayOrder = true) {entity : Option String} (ms : List Member)
    (hstay : ∀ m ∈ ms, m.Throughout (ChildrenStay o)) :
    TurnedInside (sortEachInside .yaml o entity ms) := by
  match ms with
  | [] => exact fun _ h => absurd h List.not_mem_nil
  | m :: rest =>
    rw [sortEachInside]
    intro x hx m' hm'
    rcases List.mem_cons.mp hx with rfl | hx
    · exact sortInside_turned harrays m (hstay m List.mem_cons_self) hm'
    · exact sortEachInside_turned harrays rest (fun m hm => hstay m (List.mem_cons_of_mem _ hm)) x hx m' hm'

end

end Sorter

end MemberOrder
