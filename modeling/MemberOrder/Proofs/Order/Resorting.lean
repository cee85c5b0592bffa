/-
  Sorting twice.

  A level of members is arranged with what sorting each member inside gave. Sorting the result once more
  arranges the same records, each beside what sorting it inside again gives (`resorted`), so a steady
  arrangement leaves the level alone where the insides are left alone (`arrangeLevel_again`). By
  induction on the nesting, members that have been sorted are sorted to themselves
  (`sortMembers_idempotent`). Steps of keyframes are left out: in descending order, equal ones trade
  places each time.
-/
import MemberOrder.Proofs.Order.Sorters
import MemberOrder.Proofs.Order.Steadiness

namespace MemberOrder.Sorter

open MemberOrder.Order

variable {sorter : Sorter} {o : Options} {context : Option EntityKind} {entity : Option String}
  {checksNames : Bool}

/-! ## One level -/

theorem mapInfo_self (m : Member) : (m.mapInfo fun _ => m.info) = m := by
  cases m <;> rfl

theorem info_mapInfo (m : Member) (f : MemberInfo → MemberInfo) : (m.mapInfo f).info = f m.info := by
  cases m <;> rfl

/-- What sorting a member inside gave, with the record that the member had, beside what sorting that
inside gives. -/
def resorted (inside : Member → Except SortError Member) (x : Nested) : Nested :=
  let m := (x.2.toOption.getD x.1).mapInfo fun _ => x.1.info
  (m, inside m)

theorem resorted_info (inside : Member → Except SortError Member) (x : Nested) :
    (resorted inside x).1.info = x.1.info := info_mapInfo _ _

/-- What sorting members inside gave keeps their records and is left alone by sorting it inside. -/
def SettledInside (inside : Member → Except SortError Member) (items : List Nested) : Prop :=
  ∀ x ∈ items, ∀ m', x.2 = .ok m' → m'.info = x.1.info ∧ inside m' = .ok m'

variable {inside : Member → Except SortError Member} {items : List Nested} {r : List Member}

/-- Where the insides are left alone, a level that comes out is made of the items resorted. -/
theorem map_resorted (hinside : SettledInside inside items) (h : items.mapM Prod.snd = .ok r) :
    items.map (resorted inside) = r.map (fun m => (m, inside m)) ∧ ∀ m ∈ r, inside m = .ok m := by
  induction items generalizing r with
  | nil =>
    cases h
    exact ⟨rfl, fun _ hm => absurd hm List.not_mem_nil⟩
  | cons x rest ih =>
    rw [List.mapM_cons] at h
    obtain ⟨m', hm', h⟩ := bind_ok h
    obtain ⟨others, hothers, h⟩ := bind_ok h
    cases h
    obtain ⟨hmap, halone⟩ := ih (fun y hy => hinside y (List.mem_cons_of_mem x hy)) hothers
    obtain ⟨hinfo, hself⟩ := hinside x List.mem_cons_self m' hm'
    have hx : resorted inside x = (m', inside m') := by
      simp only [resorted, hm', Except.toOption, Option.getD_some, ← hinfo, mapInfo_self]
    refine ⟨by rw [List.map_cons, hx, hmap, List.map_cons], fun m hm => ?_⟩
    rcases List.mem_cons.mp hm with rfl | hm
    · exact hself
    · exact halone m hm

/-- A level whose names are checked has them. -/
theorem arrangeLevel_named (h : sorter.arrangeLevel o context entity checksNames items = .ok r) :
    checksNames = true → ∀ x ∈ items, x.1.info.hasName = true := by
  rintro rfl x hx
  rw [arrangeLevel, if_pos rfl] at h
  split at h
  · cases h
  · rename_i hnone
    simpa using List.find?_eq_none.mp hnone x hx

/-- A level that passes its checks is arranged around its spreads. -/
theorem arrangeLevel_checked (hsome : sorter.lacksSteps context items = false)
    (hnames : checksNames = true → ∀ x ∈ items, x.1.info.hasName = true) :
    sorter.arrangeLevel o context entity checksNames items = (do
      let ordered ← (sorter.arrangeAround o context Prod.fst items).mapError (.incomparable entity)
      ordered.mapM Prod.snd) := by
  unfold arrangeLevel
  rw [hsome]
  cases checksNames with
  | false => rfl
  | true =>
    have hnone : (items.find? fun x => !x.1.info.hasName) = none :=
      List.find?_eq_none.mpr fun x hx => by simp [hnames rfl x hx]
    rw [if_pos rfl, hnone]
    rfl

/-- A level that is no list of keyframe steps is arranged if it has its names. -/
theorem arrangeLevel_eq (hsteps : sorter = .style → context ≠ some .cssKeyframes)
    (hnames : checksNames = true → ∀ x ∈ items, x.1.info.hasName = true) :
    sorter.arrangeLevel o context entity checksNames items = (do
      let ordered ← (sorter.arrangeAround o context Prod.fst items).mapError (.incomparable entity)
      ordered.mapM Prod.snd) := by
  refine arrangeLevel_checked ?_ hnames
  rw [lacksSteps, Bool.and_eq_false_iff, Bool.and_eq_false_iff]
  by_cases hstyle : sorter = .style
  · exact .inl (.inr (beq_eq_false_iff_ne.mpr (hsteps hstyle)))
  · exact .inl (.inl (beq_eq_false_iff_ne.mpr hstyle))

/-- Where the insides are left alone, a level that was arranged is arranged to itself. -/
theorem arrangeLevel_again (hsteady : Steady fun _ view items => sorter.arrange o context view items)
    (hsteps : sorter = .style → context ≠ some .cssKeyframes) (hinside : SettledInside inside items)
    (h : sorter.arrangeLevel o context entity checksNames items = .ok r) :
    sorter.arrangeLevel o context entity checksNames (r.map fun m => (m, inside m)) = .ok r := by
  have haround := arrangeAround_steady hsteady
  have hnames := arrangeLevel_named h
  obtain ⟨ordered, hordered, hr⟩ := arrangeLevel_ok h
  have hmem {x : Nested} (hx : x ∈ ordered) : x ∈ items := (haround.perm hordered).mem_iff.mp hx
  obtain ⟨hmap, halone⟩ := map_resorted (fun x hx => hinside x (hmem hx)) hr
  -- the level is arranged as its records were, which are in order
  have hagain : sorter.arrangeAround o context Prod.fst (ordered.map (resorted inside)) =
      .ok (ordered.map (resorted inside)) := by
    rw [haround.along (resorted inside) (resorted_info inside) ordered, haround.again hordered]
    rfl
  have hnamed : checksNames = true → ∀ x ∈ ordered.map (resorted inside), x.1.info.hasName = true := by
    intro hchecks x hx
    obtain ⟨y, hy, rfl⟩ := List.mem_map.mp hx
    rw [resorted_info]
    exact hnames hchecks y (hmem hy)
  rw [← hmap, arrangeLevel_eq hsteps hnamed, hagain, hmap]
  refine (mapM_snd_self fun x hx => ?_).trans (congrArg Except.ok ?_)
  · obtain ⟨m, hm, rfl⟩ := List.mem_map.mp hx
    exact halone m hm
  · rw [List.map_map]
    exact List.map_id r

/-! ## All levels -/

theorem sortEachInside_eq (entity : Option String) (ms : List Member) :
    sortEachInside sorter o entity ms = ms.map fun m => (m, sortInside sorter o entity m) :=
  sortEachInside_eq_beside entity ms

theorem childContext_steps (sorter : Sorter) (parent : MemberInfo) :
    sorter.childContext parent ≠ some .cssKeyframes := by
  unfold childContext
  cases sorter.isDocumentWide with
  | false => simp
  | true => cases parent.container == .brackets <;> simp

mutual

/-- A member that was sorted inside keeps its record and is sorted inside to itself. -/
theorem sortInside_again (hplain : o.naturalSort = false) (hsorter : sorter ≠ .yaml) {m m' : Member}
    (h : sortInside sorter o entity m = .ok m') :
    m'.info = m.info ∧ sortInside sorter o entity m' = .ok m' := by
  cases m with
  | leaf i =>
    cases h
    exact ⟨rfl, rfl⟩
  | group i children =>
    rw [sortInside] at h
    split at h
    · rename_i hempty
      cases h
      exact ⟨rfl, by rw [sortInside, if_pos hempty]⟩
    · obtain ⟨sorted, hsorted, h⟩ := bind_ok h
      cases h
      have hsteps := fun _ : sorter = .style => childContext_steps sorter i
      have hagain := arrangeLevel_again (arrange_steady hplain hsorter hsteps) hsteps
        (sortEachInside_settled hplain hsorter children) hsorted
      rw [← sortEachInside_eq] at hagain
      refine ⟨rfl, ?_⟩
      rw [sortInside, hagain]
      split <;> rfl

/-- Members that were sorted inside are sorted inside to themselves. -/
theorem sortEachInside_settled (hplain : o.naturalSort = false) (hsorter : sorter ≠ .yaml)
    (ms : List Member) :
    SettledInside (sortInside sorter o entity) (sortEachInside sorter o entity ms) := by
  cases ms with
  | nil => exact fun _ hx => absurd hx List.not_mem_nil
  | cons m rest =>
    have hrest := sortEachInside_settled hplain hsorter rest
    rw [sortEachInside]
    intro x hx m' hm'
    rcases List.mem_cons.mp hx with rfl | hx
    · exact sortInside_again hplain hsorter hm'
    · exact hrest x hx m' hm'

end

/-- Without natural order, members that have been sorted are sorted to themselves, whatever the sorter,
the options, the entity and the members; left out are documents in which anchors are lifted and the
steps of keyframes. -/
theorem sortMembers_idempotent (sorter : Sorter) (o : Options) (entity : Option (EntityKind × String))
    (ms ms' : List Member) (hsorter : sorter ≠ .yaml)
    (hsteps : sorter = .style → entity.map (·.1) ≠ some .cssKeyframes) (hplain : o.naturalSort = false)
    (h : sorter.sortMembers o entity ms = .ok ms') : sorter.sortMembers o entity ms' = .ok ms' := by
  have hsteady := arrange_steady hplain hsorter hsteps
  cases hempty' : ms'.isEmpty with
  | true =>
    rw [sortMembers, if_pos hempty', List.isEmpty_iff.mp hempty']
  | false =>
    unfold sortMembers at h ⊢
    rw [if_neg (by rw [hempty']; decide)]
    split at h
    · cases h
      cases hempty'
    · cases hnested : o.sortNestedObjects with
      | false =>
        simp only [hnested, Bool.false_eq_true, if_false] at h ⊢
        refine arrangeLevel_again hsteady hsteps (fun x hx m' hm' => ?_) h
        obtain ⟨m, -, rfl⟩ := List.mem_map.mp hx
        cases hm'
        exact ⟨rfl, rfl⟩
      | true =>
        simp only [hnested, if_true] at h ⊢
        rw [sortEachInside_eq]
        exact arrangeLevel_again hsteady hsteps (sortEachInside_settled hplain hsorter ms) h

/-- Declarations with two marks that are not well known, a spread between them, equal names and a block. -/
def markedDeclarations : List Member :=
  [.leaf { name := "-b-x", vendorPrefix := some "-b-" },
    .leaf { name := "z" },
    .leaf { name := "@include m", isSpread := true },
    .leaf { name := "-a-y", vendorPrefix := some "-a-" },
    .group { name := "&:hover", hasNestedObject := true } [.leaf { name := "d" }, .leaf { name := "c" }],
    .leaf { name := "-b-w", vendorPrefix := some "-b-", important := true },
    .leaf { name := "z", important := true }]

/-- What they are sorted to. -/
def markedTrees : List NameTree :=
  [.node "-b-w" [], .node "z" [], .node "@include m" [], .node "-b-x" [], .node "-a-y" [],
    .node "&:hover" [.node "c" [], .node "d" []], .node "z" []]

/-- The marks keep the order in which they were first seen, and sorting again finds them in it. -/
theorem sortMembers_idempotent_marked :
    ((Sorter.style.sortMembers { groupVendorPrefixes := true, sortByImportance := true }
        (some (.cssRule, "a")) markedDeclarations).toOption.map nameTrees).map (sameTrees markedTrees) =
      some true ∧
    ∃ ms', Sorter.style.sortMembers { groupVendorPrefixes := true, sortByImportance := true }
        (some (.cssRule, "a")) markedDeclarations = .ok ms' ∧
      Sorter.style.sortMembers { groupVendorPrefixes := true, sortByImportance := true }
        (some (.cssRule, "a")) ms' = .ok ms' := by
  have hnames : ((Sorter.style.sortMembers { groupVendorPrefixes := true, sortByImportance := true }
      (some (.cssRule, "a")) markedDeclarations).toOption.map nameTrees).map (sameTrees markedTrees) =
      some true := by
    decide
  refine ⟨hnames, ?_⟩
  cases h : Sorter.style.sortMembers { groupVendorPrefixes := true, sortByImportance := true }
      (some (.cssRule, "a")) markedDeclarations with
  | error err =>
    rw [h] at hnames
    cases hnames
  | ok ms' =>
    exact ⟨ms', rfl, sortMembers_idempotent .style _ (some (.cssRule, "a")) markedDeclarations ms'
      (by decide) (fun _ => by decide) rfl h⟩

end MemberOrder.Sorter
