/-
  Arranging permutes.

  Every way of arranging items gives back the items in another order, or fails. A sort by a
  comparison that can fail takes its items apart into a run and the rest and puts them together again
  (`insertionSort_perm`); groups that are made by keys hold every item once (`flatten_filters_perm`).
  From these each sorter permutes its items (`arrange_perm`), and so does dealing arranged items
  into the places around the spreads (`arrangeAround_perm`).
-/
import MemberOrder.Order.Sorter
import MemberOrder.Proofs.Fallible
import MemberOrder.Proofs.Order.Sorting

namespace MemberOrder.Order

variable {α β ε : Type}

/-! ## Insertion by bisection -/

theorem runFrom_append {goesOn : α → α → Except ε Bool} {last : α} {items : List α}
    {r : List α × List α} (h : runFrom goesOn last items = .ok r) : r.1 ++ r.2 = items := by
  induction items generalizing last r with
  | nil =>
    cases h
    rfl
  | cons x rest ih =>
    rw [runFrom] at h
    obtain ⟨goes, -, h⟩ := bind_ok h
    split at h
    · obtain ⟨run, hrun, h⟩ := bind_ok h
      cases h
      rw [List.cons_append, ih hrun]
    · cases h
      rfl

theorem initialRun_perm {before : α → α → Except ε Bool} {items : List α} {r : List α × List α}
    (h : initialRun before items = .ok r) : (r.1 ++ r.2).Perm items := by
  match items, h with
  | [], h =>
    cases h
    exact .refl _
  | [x], h =>
    cases h
    exact .refl _
  | x :: y :: rest, h =>
    rw [initialRun] at h
    obtain ⟨falls, -, h⟩ := bind_ok h
    split at h
    · obtain ⟨run, hrun, h⟩ := bind_ok h
      cases h
      have hjoin := runFrom_append hrun
      refine ((List.reverse_perm _).append_right _).trans ?_
      rw [List.cons_append, List.cons_append, hjoin]
    · obtain ⟨run, hrun, h⟩ := bind_ok h
      cases h
      rw [List.cons_append, List.cons_append, runFrom_append hrun]

theorem insertEach_perm {before : α → α → Except ε Bool} {sorted items r : List α}
    (h : insertEach before sorted items = .ok r) : r.Perm (sorted ++ items) := by
  induction items generalizing sorted with
  | nil =>
    cases h
    rw [List.append_nil]
  | cons x rest ih =>
    rw [insertEach] at h
    obtain ⟨place, -, h⟩ := bind_ok h
    refine (ih h).trans ?_
    -- wherever the item goes in, it is in
    have hin : (sorted.take place ++ x :: sorted.drop place).Perm (x :: sorted) := by
      refine List.perm_middle.trans ?_
      rw [List.take_append_drop]
    exact (hin.append_right rest).trans List.perm_middle.symm

theorem insertionSort_perm {cmp : α → α → Except ε Ordering} {items r : List α}
    (h : insertionSort cmp items = .ok r) : r.Perm items := by
  rw [insertionSort] at h
  obtain ⟨run, hrun, h⟩ := bind_ok h
  exact (insertEach_perm h).trans (initialRun_perm hrun)

/-! ## Sorting by the comparison chain -/

theorem sortBy_perm {o : Options} {cmp : MemberInfo → MemberInfo → Except Fault Ordering}
    {view : α → Member} {items r : List α} (h : sortBy o cmp view items = .ok r) : r.Perm items := by
  unfold sortBy at h
  simp only at h
  split at h
  · exact insertionSort_perm h
  · cases h
    exact stableSort_perm _ items

theorem sortGroup_perm {o : Options} {view : α → Member} {items r : List α}
    (h : sortGroup o view items = .ok r) : r.Perm items := sortBy_perm h

/-- Groups that are permuted one by one are permuted together. -/
theorem eachGroup_perm {arrange : List α → Except Fault (List α)}
    (harrange : ∀ {items r : List α}, arrange items = .ok r → r.Perm items) {groups : List (List α)} {r : List α}
    (h : eachGroup arrange groups = .ok r) : r.Perm groups.flatten := by
  induction groups generalizing r with
  | nil =>
    cases h
    exact .refl _
  | cons group rest ih =>
    rw [eachGroup] at h
    obtain ⟨arranged, harranged, h⟩ := bind_ok h
    obtain ⟨others, hothers, h⟩ := bind_ok h
    cases h
    rw [List.flatten_cons]
    exact (harrange harranged).append (ih hothers)

/-! ## Groups -/

/-- Groups made by tests that exclude each other, and what passes none of them, hold all items. -/
theorem flatten_filters_perm {κ : Type} {test : κ → α → Bool} {keys : List κ}
    (hkeys : keys.Pairwise fun k k' => ∀ x, test k x = true → test k' x = false) (items : List α) :
    ((keys.map fun k => items.filter (test k)).flatten ++
      items.filter fun x => !keys.any (test · x)).Perm items := by
  induction keys generalizing items with
  | nil =>
    have hall : (items.filter fun x => !([] : List κ).any (test · x)) = items :=
      List.filter_eq_self.mpr fun _ _ => rfl
    rw [hall]
    exact .refl _
  | cons k rest ih =>
    obtain ⟨hk, hrest⟩ := List.pairwise_cons.mp hkeys
    -- the later groups are made of what the first test leaves
    have hgroups : (rest.map fun k' => items.filter (test k')) =
        rest.map fun k' => (items.filter fun x => !test k x).filter (test k') := by
      refine List.map_congr_left fun k' hk' => ?_
      rw [List.filter_filter]
      refine List.filter_congr fun x _ => ?_
      cases hx : test k x with
      | false => simp
      | true => simp [hk k' hk' x hx]
    have hnone : (items.filter fun x => !(k :: rest).any (test · x)) =
        (items.filter fun x => !test k x).filter fun x => !rest.any (test · x) := by
      rw [List.filter_filter]
      refine List.filter_congr fun x _ => ?_
      rw [List.any_cons, Bool.not_or, Bool.and_comm]
    rw [List.map_cons, List.flatten_cons, List.append_assoc, hgroups, hnone]
    exact ((ih hrest _).append_left _).trans (List.filter_append_perm (test k) items)

/-- The same where every item that passes no test passes a last one. -/
theorem flatten_groups_perm {κ : Type} {test : κ → α → Bool} {last : α → Bool} {keys : List κ}
    (hkeys : keys.Pairwise fun k k' => ∀ x, test k x = true → test k' x = false) {items : List α}
    (hlast : ∀ x ∈ items, last x = !keys.any (test · x)) :
    ((keys.map fun k => items.filter (test k)) ++ [items.filter last]).flatten.Perm items := by
  rw [List.flatten_append, List.flatten_singleton, List.filter_congr hlast]
  exact flatten_filters_perm hkeys items

/-! ## Scripts -/

theorem arrangeScript_perm {o : Options} {context : Option EntityKind} {view : α → Member}
    {items r : List α} (h : arrangeScript o context view items = .ok r) : r.Perm items := by
  unfold arrangeScript at h
  simp only at h
  split at h
  · obtain ⟨rest, hrest, h⟩ := bind_ok h
    cases h
    refine ((sortGroup_perm hrest).append_left _).trans ?_
    exact List.filter_append_perm (fun x => isChained (view x)) items
  · exact sortGroup_perm h

/-! ## Style sheets -/

theorem arrangeSteps_perm (o : Options) (view : α → Member) (items : List α) :
    (arrangeSteps o view items).Perm items := by
  unfold arrangeSteps
  simp only
  split
  · exact .refl _
  · split
    · exact (List.reverse_perm _).trans (stableSort_perm _ items)
    · exact stableSort_perm _ items

/-- Adding the marks of items one by one gives every mark once, no empty one, and all that the items
have, when adding the mark of one item does. -/
theorem foldl_marks {add : List String → α → List String} {mark? : α → Option String}
    (hadd : ∀ marks x, marks.Nodup → "" ∉ marks → (add marks x).Nodup ∧ "" ∉ add marks x ∧
      marks ⊆ add marks x ∧ ∀ mark, mark? x = some mark → mark ≠ "" → mark ∈ add marks x)
    {items : List α} {marks : List String} (hnodup : marks.Nodup) (hempty : "" ∉ marks) :
    (items.foldl add marks).Nodup ∧ "" ∉ items.foldl add marks ∧ marks ⊆ items.foldl add marks ∧
      ∀ x ∈ items, ∀ mark, mark? x = some mark → mark ≠ "" → mark ∈ items.foldl add marks := by
  induction items generalizing marks with
  | nil => exact ⟨hnodup, hempty, List.Subset.refl _, fun _ h => absurd h List.not_mem_nil⟩
  | cons x rest ih =>
    obtain ⟨hnodup', hempty', hsubset, hx⟩ := hadd marks x hnodup hempty
    obtain ⟨g1, g2, g3, g4⟩ := ih hnodup' hempty'
    refine ⟨g1, g2, List.Subset.trans hsubset g3, fun y hy mark hmark hne => ?_⟩
    rcases List.mem_cons.mp hy with rfl | hy
    · exact g3 (hx mark hmark hne)
    · exact g4 y hy mark hmark hne

/-- The vendor marks of items: each once, none empty, and all of those that the items have. -/
theorem vendorMarks_spec (view : α → Member) (items : List α) :
    (vendorMarks view items).Nodup ∧ "" ∉ vendorMarks view items ∧
      ∀ x ∈ items, ∀ mark, (view x).info.vendorPrefix = some mark → mark ≠ "" →
        mark ∈ vendorMarks view items := by
  unfold vendorMarks
  refine And.imp_right (And.imp_right And.right) (foldl_marks (fun marks x hnodup hempty => ?_)
    (by decide) (by decide))
  cases hx : (view x).info.vendorPrefix with
  | none => exact ⟨hnodup, hempty, List.Subset.refl _, fun mark h => by cases h⟩
  | some first =>
    dsimp only
    split
    · rename_i hskip
      refine ⟨hnodup, hempty, List.Subset.refl _, fun mark hmark hne => ?_⟩
      cases hmark
      simpa [hne] using hskip
    · rename_i hadd
      simp only [Bool.or_eq_true, not_or, Bool.not_eq_true, String.isEmpty_eq_false_iff,
        List.contains_eq_mem, decide_eq_false_iff_not] at hadd
      refine ⟨?_, ?_, List.subset_append_left _ _, fun mark hmark _ => ?_⟩
      · refine List.nodup_append.mpr ⟨hnodup, List.pairwise_singleton _ _, fun a ha b hb => ?_⟩
        rw [List.mem_singleton.mp hb]
        rintro rfl
        exact hadd.2 ha
      · rw [List.mem_append, List.mem_singleton, not_or]
        exact ⟨hempty, fun h => hadd.1 h.symm⟩
      · cases hmark
        exact List.mem_append_right _ (List.mem_singleton.mpr rfl)

/-- Two tests that a text has one value and another exclude each other when the values differ. -/
theorem pairwise_of_nodup {κ : Type} [BEq κ] [LawfulBEq κ] {keys : List κ} (key : α → Option κ)
    (h : keys.Nodup) :
    keys.Pairwise fun k k' => ∀ x, (key x == some k) = true → (key x == some k') = false := by
  refine List.Pairwise.imp (fun {k k'} hne x hx => ?_) h
  rw [eq_of_beq hx]
  simpa using hne

theorem arrangeByVendor_perm {o : Options} {view : α → Member} {items r : List α}
    (h : arrangeByVendor o view items = .ok r) : r.Perm items := by
  unfold arrangeByVendor at h
  split at h
  · exact sortGroup_perm h
  · obtain ⟨hnodup, hempty, hall⟩ := vendorMarks_spec view items
    refine (eachGroup_perm sortGroup_perm h).trans (flatten_groups_perm
      (pairwise_of_nodup (fun x => (view x).info.vendorPrefix) hnodup) fun x hx => ?_)
    -- a declaration with a mark that is not empty is in the group of that mark
    refine congrArg not (Bool.eq_iff_iff.mpr ?_)
    simp only [List.any_eq_true, beq_iff_eq, hasVendor]
    cases hmark : (view x).info.vendorPrefix with
    | none => simp
    | some mark =>
      have := hall x hx mark hmark
      simp only [Option.some.injEq, exists_eq_right', Bool.not_eq_true', String.isEmpty_eq_false_iff]
      exact ⟨this, fun hmem heq => hempty (heq ▸ hmem)⟩

theorem arrangeByImportance_perm {o : Options} {view : α → Member} {items r : List α}
    (h : arrangeByImportance o view items = .ok r) : r.Perm items := by
  unfold arrangeByImportance at h
  split at h
  · exact arrangeByVendor_perm h
  · obtain ⟨important, himportant, h⟩ := bind_ok h
    obtain ⟨normal, hnormal, h⟩ := bind_ok h
    cases h
    refine ((arrangeByVendor_perm himportant).append (arrangeByVendor_perm hnormal)).trans ?_
    exact List.filter_append_perm (fun x => (view x).info.important) items

theorem arrangeDeclarations_perm {o : Options} {view : α → Member} {items r : List α}
    (h : arrangeDeclarations o view items = .ok r) : r.Perm items := by
  have hsplit : ((if o.groupVariables then items.filter fun x => isVariable (view x) else []) ++
      if o.groupVariables then items.filter fun x => !isVariable (view x) else items).Perm items := by
    split
    · exact List.filter_append_perm (fun x => isVariable (view x)) items
    · exact .refl _
  unfold arrangeDeclarations at h
  simp only at h
  split at h
  · cases h
    exact ((stableSort_perm _ _).append_left _).trans hsplit
  · obtain ⟨rest, hrest, h⟩ := bind_ok h
    cases h
    exact ((arrangeByImportance_perm hrest).append_left _).trans hsplit

theorem arrangeStyle_perm {o : Options} {context : Option EntityKind} {view : α → Member}
    {items r : List α} (h : arrangeStyle o context view items = .ok r) : r.Perm items := by
  unfold arrangeStyle at h
  simp only at h
  split at h
  · cases h
    exact arrangeSteps_perm o view items
  · exact arrangeDeclarations_perm h

/-! ## Fields -/

theorem sortBySize_perm {o : Options} {view : α → Member} {items r : List α}
    (h : sortBySize o view items = .ok r) : r.Perm items := by
  unfold sortBySize at h
  split at h
  · exact sortBy_perm h
  · obtain ⟨-, -, h⟩ := bind_ok h
    exact sortBy_perm h

theorem orderFields_perm {o : Options} {view : α → Member} {items r : List α}
    (h : orderFields o view items = .ok r) : r.Perm items := by
  unfold orderFields at h
  split at h
  · exact sortBy_perm h
  · exact sortBySize_perm h
  · exact sortGroup_perm h
  · exact sortGroup_perm h

theorem arrangeByVisibility_perm {o : Options} {view : α → Member} {items r : List α}
    (h : arrangeByVisibility o view items = .ok r) : r.Perm items := by
  unfold arrangeByVisibility at h
  split at h
  · obtain ⟨exported, hexported, h⟩ := bind_ok h
    obtain ⟨unexported, hunexported, h⟩ := bind_ok h
    cases h
    refine ((orderFields_perm hexported).append (orderFields_perm hunexported)).trans ?_
    exact List.filter_append_perm (fun x => isExported (view x).info) items
  · exact orderFields_perm h

theorem nodup_eraseDups {κ : Type} [BEq κ] [LawfulBEq κ] (keys : List κ) : keys.eraseDups.Nodup := by
  cases keys with
  | nil => exact .nil
  | cons k rest =>
    rw [List.eraseDups_cons]
    refine List.nodup_cons.mpr ⟨fun hk => ?_, nodup_eraseDups _⟩
    have := (List.mem_filter.mp (List.mem_eraseDups.mp hk)).2
    simp at this
termination_by keys.length
decreasing_by exact Nat.lt_succ_of_le (List.length_filter_le _ _)

theorem arrangeByTags_perm {o : Options} {view : α → Member} {items r : List α}
    (h : arrangeByTags o view items = .ok r) : r.Perm items := by
  unfold arrangeByTags at h
  simp only at h
  split at h
  · have hnodup : (tagPatterns view items).Nodup :=
      (stableSort_perm _ _).nodup_iff.mpr (nodup_eraseDups _)
    refine (eachGroup_perm arrangeByVisibility_perm h).trans (flatten_groups_perm
      (pairwise_of_nodup (fun x => tagPattern (view x).info.structTags) hnodup) fun x hx => ?_)
    cases htag : tagPattern (view x).info.structTags with
    | none => simp
    | some pattern =>
      have hmem : pattern ∈ tagPatterns view items := by
        refine (stableSort_perm _ _).mem_iff.mpr (List.mem_eraseDups.mpr ?_)
        exact List.mem_filterMap.mpr ⟨x, hx, htag⟩
      have hany : (tagPatterns view items).any (some pattern == some ·) = true :=
        List.any_eq_true.mpr ⟨pattern, hmem, beq_self_eq_true _⟩
      rw [hany]
      rfl
  · exact arrangeByVisibility_perm h

theorem arrangeFields_perm {o : Options} {view : α → Member} {items r : List α}
    (h : arrangeFields o view items = .ok r) : r.Perm items := by
  unfold arrangeFields at h
  split at h
  · obtain ⟨embedded, hembedded, h⟩ := bind_ok h
    obtain ⟨regular, hregular, h⟩ := bind_ok h
    cases h
    refine ((arrangeByTags_perm hembedded).append (arrangeByTags_perm hregular)).trans ?_
    exact List.filter_append_perm (fun x => (view x).info.isEmbedded) items
  · exact arrangeByTags_perm h

/-! ## Entries -/

theorem schemaRank_lt (i : MemberInfo) : schemaRank i < schemaBuckets.length + 2 := by
  unfold schemaRank
  simp only
  split
  · omega
  · split <;> omega

theorem arrangeRemaining_perm {o : Options} {rules : EntryRules} {view : α → Member}
    {items r : List α} (h : arrangeRemaining o rules view items = .ok r) : r.Perm items := by
  unfold arrangeRemaining at h
  simp only at h
  split at h
  · exact sortGroup_perm h
  · have hkeys : (List.range (schemaBuckets.length + 2)).Pairwise fun k k' =>
        ∀ x : α, (schemaRank (view x).info == k) = true → (schemaRank (view x).info == k') = false := by
      refine List.nodup_range.imp fun {k k'} hne x hx => ?_
      rw [eq_of_beq hx]
      simpa using hne
    have hgroups := flatten_filters_perm hkeys items
    -- every rank is one of those that are listed
    have hnone : (items.filter fun x => !(List.range (schemaBuckets.length + 2)).any
        fun rank => schemaRank (view x).info == rank) = [] := by
      refine List.filter_eq_nil_iff.mpr fun x _ hx => ?_
      have hlt := schemaRank_lt (view x).info
      simp only [Bool.not_eq_true', List.any_eq_false, List.mem_range] at hx
      exact hx _ hlt (beq_self_eq_true _)
    rw [hnone, List.append_nil] at hgroups
    exact (eachGroup_perm sortGroup_perm h).trans hgroups

theorem arrangeEntries_perm {o : Options} {rules : EntryRules} {isArray : Bool} {view : α → Member}
    {items r : List α} (h : arrangeEntries o rules isArray view items = .ok r) : r.Perm items := by
  unfold arrangeEntries at h
  split at h
  · split at h
    · cases h
      exact .refl _
    · exact sortBy_perm h
  · split at h
    · cases h
      exact .refl _
    · obtain ⟨remaining, hremaining, h⟩ := bind_ok h
      cases h
      refine ((stableSort_perm _ _).append (arrangeRemaining_perm hremaining)).trans ?_
      exact List.filter_append_perm (fun x => rules.customKeys.contains (view x).name) items

theorem liftOne?_perm {items moved : List (Linked α)} (h : liftOne? items = some moved) :
    moved.Perm items := by
  induction items generalizing moved with
  | nil => cases h
  | cons x later ih =>
    rw [liftOne?] at h
    split at h
    · rename_i j _
      split at h
      · rename_i owner howner
        cases h
        obtain ⟨hj, rfl⟩ := List.getElem?_eq_some_iff.mp howner
        refine (List.Perm.swap _ _ _).trans (List.Perm.cons _ ?_)
        rw [List.eraseIdx_eq_take_drop_succ]
        refine List.perm_middle.symm.trans (.of_eq ?_)
        rw [← List.drop_eq_getElem_cons hj, List.take_append_drop]
      · cases h
    · obtain ⟨others, hothers, rfl⟩ := Option.map_eq_some_iff.mp h
      exact (ih hothers).cons x

theorem liftAnchors_perm (fuel : Nat) (items : List (Linked α)) :
    (liftAnchors fuel items).Perm items := by
  induction fuel generalizing items with
  | zero => exact .refl _
  | succ fuel ih =>
    rw [liftAnchors]
    split
    · rename_i moved hmoved
      exact (ih moved).trans (liftOne?_perm hmoved)
    · exact .refl _

theorem anchorsFirst_perm (view : α → Member) (items : List α) :
    (anchorsFirst view items).Perm items := by
  unfold anchorsFirst
  refine ((liftAnchors_perm _ _).map Linked.item).trans ?_
  rw [List.map_map]
  exact List.Perm.of_eq (List.map_id items)

theorem arrangeYaml_perm {o : Options} {isArray : Bool} {view : α → Member} {items r : List α}
    (h : arrangeYaml o isArray view items = .ok r) : r.Perm items := by
  unfold arrangeYaml at h
  obtain ⟨arranged, harranged, h⟩ := bind_ok h
  cases h
  split
  · exact (anchorsFirst_perm view arranged).trans (arrangeEntries_perm harranged)
  · exact arrangeEntries_perm harranged

end MemberOrder.Order

namespace MemberOrder.Sorter

open MemberOrder.Order

variable {α : Type}

/-! ## Sorters -/

/-- Every sorter arranges items in some order. -/
theorem arrange_perm {sorter : Sorter} {o : Options} {context : Option EntityKind} {view : α → Member}
    {items r : List α} (h : sorter.arrange o context view items = .ok r) : r.Perm items := by
  unfold arrange at h
  cases sorter with
  | generic => exact sortGroup_perm h
  | script => exact arrangeScript_perm h
  | style => exact arrangeStyle_perm h
  | struct => exact arrangeFields_perm h
  | json => exact arrangeEntries_perm h
  | yaml => exact arrangeYaml_perm h

/-- Dealing as many items as there are places around the spreads puts them all in. -/
theorem refill_perm (view : α → Member) {items arranged : List α}
    (h : arranged.length = (items.filter fun x => !(view x).info.isSpread).length) :
    (refill view items arranged).Perm ((items.filter fun x => (view x).info.isSpread) ++ arranged) := by
  induction items generalizing arranged with
  | nil =>
    obtain rfl : arranged = [] := List.eq_nil_of_length_eq_zero h
    exact .refl _
  | cons x rest ih =>
    unfold refill
    cases hx : (view x).info.isSpread with
    | true =>
      rw [if_pos rfl, List.filter_cons, if_pos hx, List.cons_append]
      exact (ih (by simpa [hx] using h)).cons x
    | false =>
      rw [if_neg (by decide), List.filter_cons, if_neg (by simp [hx])]
      cases arranged with
      | nil => simp [hx] at h
      | cons y others =>
        refine ((ih (by simpa [hx] using h)).cons y).trans ?_
        exact List.perm_middle.symm

/-- Arranging around the spreads permutes the items. -/
theorem arrangeAround_perm {sorter : Sorter} {o : Options} {context : Option EntityKind}
    {view : α → Member} {items r : List α} (h : sorter.arrangeAround o context view items = .ok r) :
    r.Perm items := by
  unfold arrangeAround at h
  obtain ⟨arranged, harranged, h⟩ := bind_ok h
  cases h
  have hperm := arrange_perm harranged
  refine (refill_perm view hperm.length_eq).trans ((hperm.append_left _).trans ?_)
  exact List.filter_append_perm (fun x => (view x).info.isSpread) items

end MemberOrder.Sorter
