/-
  Sorting arranges.

  A level of members is arranged after their children have been sorted: it comes out as a permutation
  of the members that leaves the spreads at their places, each member with what sorting it inside gave
  (`arrangeLevel_arranged`). By induction on the nesting, members that are sorted are arranged around
  their spreads at every depth, and only at the first where children are not sorted
  (`sortMembers_pins_spreads`); in particular they are rearranged (`sortMembers_rearranged`).
-/
import MemberOrder.Proofs.Layout.Rearranging
import MemberOrder.Proofs.Order.Permuting

/-!
## Spreads keep their places

`PinsSpreads` is a permutation that leaves every spread at its index. Members are `Arranged` when
they are such a permutation of others and so are the children of each, at any depth, while nothing
else about them changes; so they are rearranged (`Arranged.rearranged`). Dealing arranged items into
the places around the spreads pins the spreads (`refill_pins`), hence so does arranging around them
(`arrangeAround_pins`).
-/

namespace MemberOrder

/-- A permutation of members that leaves every spread at its index. -/
structure PinsSpreads (ms mid : List Member) : Prop where
  perm : ms.Perm mid
  pinned : ∀ (k : Nat) (m : Member), m.info.isSpread = true → (ms[k]? = some m ↔ mid[k]? = some m)

theorem PinsSpreads.refl (ms : List Member) : PinsSpreads ms ms :=
  ⟨.refl ms, fun _ _ _ => Iff.rfl⟩

mutual

/-- A member whose children are arranged around their spreads. -/
inductive Member.Arranged : Member → Member → Prop
  | leaf (i : MemberInfo) : Member.Arranged (.leaf i) (.leaf i)
  | group (i : MemberInfo) {children mid children' : List Member} (hpins : PinsSpreads children mid)
      (h : EachArranged mid children') : Member.Arranged (.group i children) (.group i children')

/-- Members in the same order, the children of each arranged around their spreads. -/
inductive EachArranged : List Member → List Member → Prop
  | nil : EachArranged [] []
  | cons {m m' : Member} {rest rest' : List Member} (hm : m.Arranged m')
      (hrest : EachArranged rest rest') : EachArranged (m :: rest) (m' :: rest')

end

/-- Members arranged around their spreads, at every depth. -/
def Arranged (ms ms' : List Member) : Prop := ∃ mid, PinsSpreads ms mid ∧ EachArranged mid ms'

mutual

theorem Member.Arranged.refl (m : Member) : m.Arranged m := by
  cases m with
  | leaf i => exact .leaf i
  | group i children => exact .group i (.refl children) (EachArranged.refl children)

theorem EachArranged.refl (ms : List Member) : EachArranged ms ms := by
  cases ms with
  | nil => exact .nil
  | cons m rest => exact .cons (Member.Arranged.refl m) (EachArranged.refl rest)

end

theorem Arranged.refl (ms : List Member) : Arranged ms ms := ⟨ms, .refl ms, EachArranged.refl ms⟩

mutual

theorem Member.Arranged.rearranged {m m' : Member} (h : m.Arranged m') : m.Rearranged m' := by
  cases h with
  | leaf i => exact .leaf i
  | group i hpins heach => exact .group i hpins.perm heach.rearranged

theorem EachArranged.rearranged {ms ms' : List Member} (h : EachArranged ms ms') :
    EachRearranged ms ms' := by
  cases h with
  | nil => exact .nil
  | cons hm hrest => exact .cons hm.rearranged hrest.rearranged

end

theorem Arranged.rearranged {ms ms' : List Member} (h : Arranged ms ms') : Rearranged ms ms' := by
  obtain ⟨mid, hpins, heach⟩ := h
  exact ⟨mid, hpins.perm, heach.rearranged⟩

end MemberOrder

namespace MemberOrder.Sorter

variable {α : Type}

/-- Items that are no spreads are dealt into the places of items that are none. -/
theorem refill_pins (view : α → Member) {items arranged : List α}
    (hlength : arranged.length = (items.filter fun x => !(view x).info.isSpread).length)
    (harranged : ∀ y ∈ arranged, (view y).info.isSpread = false) {k : Nat} {x : α}
    (hx : (view x).info.isSpread = true) :
    items[k]? = some x ↔ (refill view items arranged)[k]? = some x := by
  induction items generalizing arranged k with
  | nil => rfl
  | cons first rest ih =>
    unfold refill
    cases hfirst : (view first).info.isSpread with
    | true =>
      rw [if_pos rfl]
      cases k with
      | zero => rfl
      | succ k =>
        rw [List.getElem?_cons_succ, List.getElem?_cons_succ]
        exact ih (by simpa [hfirst] using hlength) harranged
    | false =>
      rw [if_neg (by decide)]
      cases arranged with
      | nil => simp [hfirst] at hlength
      | cons y others =>
        have hy := harranged y List.mem_cons_self
        cases k with
        | zero =>
          -- neither the item that was here nor the one that is dealt here is a spread
          constructor
          · rintro ⟨⟩
            rw [hfirst] at hx
            cases hx
          · rintro ⟨⟩
            rw [hy] at hx
            cases hx
        | succ k =>
          rw [List.getElem?_cons_succ, List.getElem?_cons_succ]
          exact ih (by simpa [hfirst] using hlength)
            fun z hz => harranged z (List.mem_cons_of_mem y hz)

theorem refill_map {β : Type} {view : α → Member} {view' : β → Member} (f : α → β)
    (hf : ∀ x, (view' (f x)).info = (view x).info) (items arranged : List α) :
    refill view' (items.map f) (arranged.map f) = (refill view items arranged).map f := by
  induction items generalizing arranged with
  | nil => rfl
  | cons x rest ih =>
    cases hx : (view x).info.isSpread with
    | true => simp [refill, hf, hx, ih]
    | false =>
      cases arranged with
      | nil => simp [refill, hf, hx, ← ih]
      | cons y others => simp [refill, hf, hx, ih]

/-- Refilling with the items that are no spreads changes nothing. -/
theorem refill_self (view : α → Member) (items : List α) :
    refill view items (items.filter fun x => !(view x).info.isSpread) = items := by
  induction items with
  | nil => rfl
  | cons x rest ih =>
    cases hx : (view x).info.isSpread with
    | true => simp [refill, hx, ih]
    | false => simp [refill, hx, ih]

/-- The items that are no spreads come out of the refilling as they were arranged. -/
theorem refill_filter (view : α → Member) {items arranged : List α}
    (hlength : arranged.length = (items.filter fun x => !(view x).info.isSpread).length)
    (harranged : ∀ y ∈ arranged, (view y).info.isSpread = false) :
    (refill view items arranged).filter (fun x => !(view x).info.isSpread) = arranged := by
  induction items generalizing arranged with
  | nil => exact (List.eq_nil_of_length_eq_zero hlength).symm
  | cons x rest ih =>
    unfold refill
    cases hx : (view x).info.isSpread with
    | true =>
      rw [if_pos rfl, List.filter_cons_of_neg (by simp [hx])]
      exact ih (by simpa [hx] using hlength) harranged
    | false =>
      rw [if_neg (by decide)]
      cases arranged with
      | nil => simp [hx] at hlength
      | cons y others =>
        have hy := harranged y List.mem_cons_self
        simp only
        rw [List.filter_cons_of_pos (by simp [hy]),
          ih (by simpa [hx] using hlength) fun z hz => harranged z (List.mem_cons_of_mem y hz)]

/-- Arranging around the spreads leaves each spread at its index. -/
theorem arrangeAround_pins {sorter : Sorter} {o : Options} {context : Option EntityKind}
    {view : α → Member} {items r : List α} (h : sorter.arrangeAround o context view items = .ok r)
    {k : Nat} {x : α} (hx : (view x).info.isSpread = true) : items[k]? = some x ↔ r[k]? = some x := by
  unfold arrangeAround at h
  obtain ⟨arranged, harranged, h⟩ := bind_ok h
  cases h
  have hperm := arrange_perm harranged
  refine refill_pins view hperm.length_eq (fun y hy => ?_) hx
  have hfilter := (List.mem_filter.mp (hperm.mem_iff.mp hy)).2
  simpa using hfilter

end MemberOrder.Sorter

/-! ## Sorting arranges -/

namespace MemberOrder.Sorter

open MemberOrder.Order

variable {sorter : Sorter} {o : Options}

/-- Members beside what sorting them inside gave, if it gave anything. -/
def SortedInside (items : List Nested) : Prop :=
  ∀ x ∈ items, ∀ m', x.2 = .ok m' → x.1.Arranged m'

/-- What relates each member of a level to what sorting it inside gave relates the level to the outcome. -/
theorem each_of_mapM {R : Member → Member → Prop} {Each : List Member → List Member → Prop} (hnil : Each [] [])
    (hcons : ∀ {m m' ms ms'}, R m m' → Each ms ms' → Each (m :: ms) (m' :: ms')) {items : List Nested}
    (h : ∀ x ∈ items, ∀ m', x.2 = .ok m' → R x.1 m') {r : List Member} (hr : items.mapM Prod.snd = .ok r) :
    Each (items.map Prod.fst) r := by
  induction items generalizing r with
  | nil =>
    cases hr
    exact hnil
  | cons x rest ih =>
    rw [List.mapM_cons] at hr
    obtain ⟨m', hm', hr⟩ := bind_ok hr
    obtain ⟨others, hothers, hr⟩ := bind_ok hr
    cases hr
    exact hcons (h x List.mem_cons_self m' hm') (ih (fun y hy => h y (List.mem_cons_of_mem x hy)) hothers)

/-- Members beside themselves. -/
theorem mapM_snd_self {items : List Nested} (h : ∀ x ∈ items, x.2 = .ok x.1) :
    items.mapM Prod.snd = .ok (items.map Prod.fst) := by
  induction items with
  | nil => rfl
  | cons x rest ih =>
    rw [List.mapM_cons, h x List.mem_cons_self, ih fun y hy => h y (List.mem_cons_of_mem x hy)]
    rfl

/-- A level that is arranged passes its checks, and each member of it was sorted inside. -/
theorem arrangeLevel_ok {context : Option EntityKind} {entity : Option String} {checksNames : Bool}
    {items : List Nested} {r : List Member}
    (h : sorter.arrangeLevel o context entity checksNames items = .ok r) :
    ∃ ordered, sorter.arrangeAround o context Prod.fst items = .ok ordered ∧
      ordered.mapM Prod.snd = .ok r := by
  have hlast (h : (((sorter.arrangeAround o context Prod.fst items).mapError
      (SortError.incomparable entity)).bind fun ordered => ordered.mapM Prod.snd) = .ok r) :
      ∃ ordered, sorter.arrangeAround o context Prod.fst items = .ok ordered ∧
        ordered.mapM Prod.snd = .ok r := by
    obtain ⟨ordered, hordered, h⟩ := bind_ok h
    exact ⟨ordered, mapError_ok hordered, h⟩
  unfold arrangeLevel at h
  simp only at h
  split at h
  · split at h
    · cases h
    · split at h
      · cases h
      · exact hlast h
  · split at h
    · cases h
    · exact hlast h

/-- The members of items that are arranged around their spreads. -/
theorem arrangeAround_pinsSpreads {context : Option EntityKind} {items ordered : List Nested}
    (h : sorter.arrangeAround o context Prod.fst items = .ok ordered) :
    PinsSpreads (items.map Prod.fst) (ordered.map Prod.fst) := by
  refine ⟨((arrangeAround_perm h).map Prod.fst).symm, fun k m hm => ?_⟩
  rw [List.getElem?_map, List.getElem?_map, Option.map_eq_some_iff, Option.map_eq_some_iff]
  constructor
  · rintro ⟨x, hx, rfl⟩
    exact ⟨x, (arrangeAround_pins h hm).mp hx, rfl⟩
  · rintro ⟨x, hx, rfl⟩
    exact ⟨x, (arrangeAround_pins h hm).mpr hx, rfl⟩

/-- Arranging a level leaves its spreads at their places and keeps what sorting its members inside
gave. -/
theorem arrangeLevel_arranged {context : Option EntityKind} {entity : Option String}
    {checksNames : Bool} {items : List Nested} (hinside : SortedInside items) {r : List Member}
    (h : sorter.arrangeLevel o context entity checksNames items = .ok r) :
    Arranged (items.map Prod.fst) r := by
  obtain ⟨ordered, hordered, h⟩ := arrangeLevel_ok h
  have hperm := arrangeAround_perm hordered
  exact ⟨ordered.map Prod.fst, arrangeAround_pinsSpreads hordered,
    each_of_mapM .nil .cons (fun x hx => hinside x (hperm.mem_iff.mp hx)) h⟩

mutual

/-- A member that is sorted inside has its children arranged. -/
theorem sortInside_arranged {entity : Option String} {m m' : Member}
    (h : sortInside sorter o entity m = .ok m') : m.Arranged m' := by
  cases m with
  | leaf i =>
    cases h
    exact .leaf i
  | group i children =>
    rw [sortInside] at h
    split at h
    · cases h
      exact .refl _
    · obtain ⟨sorted, hsorted, h⟩ := bind_ok h
      cases h
      obtain ⟨hinside, hfst⟩ := sortEachInside_spec entity children
      obtain ⟨mid, hpins, heach⟩ := arrangeLevel_arranged hinside hsorted
      rw [hfst] at hpins
      exact .group i hpins heach

/-- Each of some members beside what sorting it inside gives. -/
theorem sortEachInside_spec (entity : Option String) (ms : List Member) :
    SortedInside (sortEachInside sorter o entity ms) ∧
      (sortEachInside sorter o entity ms).map Prod.fst = ms := by
  cases ms with
  | nil => exact ⟨fun _ h => absurd h List.not_mem_nil, rfl⟩
  | cons m rest =>
    obtain ⟨hinside, hfst⟩ := sortEachInside_spec entity rest
    rw [sortEachInside]
    refine ⟨fun x hx m' hm' => ?_, by rw [List.map_cons, hfst]⟩
    rcases List.mem_cons.mp hx with rfl | hx
    · exact sortInside_arranged hm'
    · exact hinside x hx m' hm'

end

/-- Members beside what a function makes of them. -/
def beside (f : Member → Except SortError Member) (ms : List Member) : List Nested :=
  ms.map fun m => (m, f m)

theorem map_fst_beside (f : Member → Except SortError Member) (ms : List Member) :
    (beside f ms).map Prod.fst = ms := by
  rw [beside, List.map_map]
  exact List.map_id ms

theorem sortEachInside_eq_beside (entity : Option String) (ms : List Member) :
    sortEachInside sorter o entity ms = beside (sortInside sorter o entity) ms := by
  induction ms with
  | nil => rfl
  | cons m rest ih =>
    rw [sortEachInside, ih]
    rfl

/-- Members are sorted inside only where the options say so. -/
theorem sortMembers_eq {ms : List Member} (h : ms ≠ []) (entity : Option (EntityKind × String)) :
    sorter.sortMembers o entity ms = sorter.arrangeLevel o (entity.map (·.1)) (entity.map (·.2)) true
      (beside (if o.sortNestedObjects then
        sortInside sorter o (if sorter.isDocumentWide then entity.map (·.2) else none) else .ok) ms) := by
  unfold sortMembers
  rw [if_neg (by simpa using h)]
  show sorter.arrangeLevel o (entity.map (·.1)) (entity.map (·.2)) true
    (if o.sortNestedObjects then
      sortEachInside sorter o (if sorter.isDocumentWide then entity.map (·.2) else none) ms
      else beside .ok ms) = _
  rw [sortEachInside_eq_beside]
  cases o.sortNestedObjects <;> rfl

/-- Where children are not sorted, members that are sorted are a permutation. -/
theorem sortMembers_pinsSpreads {entity : Option (EntityKind × String)} {ms ms' : List Member}
    (hnested : o.sortNestedObjects = false) (h : sorter.sortMembers o entity ms = .ok ms') :
    PinsSpreads ms ms' := by
  unfold sortMembers at h
  split at h
  · rename_i hempty
    cases h
    rw [List.isEmpty_iff.mp hempty]
    exact .refl []
  · simp only [hnested, Bool.false_eq_true, if_false] at h
    obtain ⟨ordered, hordered, h⟩ := arrangeLevel_ok h
    -- every item is a member beside itself
    have hself : ∀ x ∈ ordered, x.2 = .ok x.1 := by
      intro x hx
      obtain ⟨m, -, rfl⟩ := List.mem_map.mp ((arrangeAround_perm hordered).mem_iff.mp hx)
      rfl
    have hfst : ms.map (Prod.fst ∘ fun m => ((m, Except.ok m) : Nested)) = ms := List.map_id ms
    have hpins := arrangeAround_pinsSpreads hordered
    rw [List.map_map, hfst] at hpins
    rw [mapM_snd_self hself] at h
    cases h
    exact hpins

/-- Members that are sorted are arranged around their spreads, at every depth. -/
theorem sortMembers_arranged {entity : Option (EntityKind × String)} {ms ms' : List Member}
    (h : sorter.sortMembers o entity ms = .ok ms') : Arranged ms ms' := by
  cases hnested : o.sortNestedObjects with
  | false => exact ⟨ms', sortMembers_pinsSpreads hnested h, EachArranged.refl ms'⟩
  | true =>
    unfold sortMembers at h
    split at h
    · rename_i hempty
      cases h
      rw [List.isEmpty_iff.mp hempty]
      exact .refl []
    · simp only at h
      obtain ⟨hinside, hfst⟩ := sortEachInside_spec
        (if sorter.isDocumentWide then entity.map (·.2) else none) ms
      have harranged := arrangeLevel_arranged hinside h
      rwa [hfst] at harranged

theorem sortMembers_rearranged {entity : Option (EntityKind × String)} {ms ms' : List Member}
    (h : sorter.sortMembers o entity ms = .ok ms') : Rearranged ms ms' :=
  (sortMembers_arranged h).rearranged

/-- Sorting an entity rearranges its members. -/
theorem sortEntity_rearranged {e e' : Entity} (h : sorter.sortEntity o e = .ok e') :
    e' = { e with members := e'.members } ∧ Rearranged e.members e'.members := by
  unfold sortEntity at h
  obtain ⟨ms, hms, h⟩ := bind_ok h
  cases h
  exact ⟨rfl, sortMembers_rearranged hms⟩

/-- Whatever the sorter, the options and the entity, members that are sorted are a permutation of what
they were, in which each differs from its record in its children alone and these are such a
permutation of what they were, at every depth; where children are not sorted none of them differs. In
every list each spread is at the index it had. -/
theorem sortMembers_pins_spreads (sorter : Sorter) (o : Options)
    (entity : Option (EntityKind × String)) (ms ms' : List Member)
    (h : sorter.sortMembers o entity ms = .ok ms') :
    Arranged ms ms' ∧ (o.sortNestedObjects = false → PinsSpreads ms ms') :=
  ⟨sortMembers_arranged h, fun hnested => sortMembers_pinsSpreads hnested h⟩

/-- An object with a spread between its members, whose last member is an object of two members. -/
def spreadBetween : List Member :=
  [.leaf { name := "b" }, .leaf { name := "...x", isSpread := true },
    .group { name := "a", hasNestedObject := true, container := .braces }
      [.leaf { name := "d" }, .leaf { name := "c" }]]

/-- The other members change places around the spread, and so do the members inside. -/
theorem sortMembers_pins_spreads_between :
    ((Sorter.script.sortMembers {} none spreadBetween).toOption.map nameTrees).map
        (sameTrees [.node "a" [.node "c" [], .node "d" []], .node "...x" [], .node "b" []]) =
      some true ∧
    ∃ ms', Sorter.script.sortMembers {} none spreadBetween = .ok ms' ∧ Arranged spreadBetween ms' := by
  have hnames : ((Sorter.script.sortMembers {} none spreadBetween).toOption.map nameTrees).map
      (sameTrees [.node "a" [.node "c" [], .node "d" []], .node "...x" [], .node "b" []]) =
      some true := by
    decide
  refine ⟨hnames, ?_⟩
  cases h : Sorter.script.sortMembers {} none spreadBetween with
  | error err =>
    rw [h] at hnames
    cases hnames
  | ok ms' => exact ⟨ms', rfl, (sortMembers_pins_spreads .script {} none spreadBetween ms' h).1⟩

end MemberOrder.Sorter
