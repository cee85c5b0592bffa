/-
  The order of keyframe steps.

  Steps are sorted by position, and backwards the sorted list is turned around as a whole. So positions
  come out in order in both directions, but steps at one position keep their order forwards only: the
  steps at each position are turned around as well (`arrangeSteps_filter`). Members of a keyframes block
  are arranged with what sorting each of them inside gives (`sortMembers_steps`), hence steps that have
  been sorted are sorted to themselves exactly if turning around the steps at any one position leaves
  them alone (`sortMembers_orders_steps`); backwards, two different steps at one position trade places
  each time (`sortMembers_turns_ties`).
-/
import MemberOrder.Proofs.Order.DeclarationOrder
import MemberOrder.Proofs.Order.Resorting

namespace MemberOrder.Order

/-- The number by which the position of a step is compared. -/
def stepKey (m : Member) : Int := (keyframePosition m.name).key

theorem stepKey_of_info {m m' : Member} (h : m.info = m'.info) : stepKey m = stepKey m' := by
  rw [stepKey, stepKey, Member.name, Member.name, h]

/-- Whether a step is at a position. -/
def isAt (position : Int) (m : Member) : Bool := stepKey m == position

/-- Of two steps, the first may come first in the direction of the options. -/
def StepsInOrder (o : Options) (a b : Member) : Prop :=
  if o.isDescending then stepKey b ≤ stepKey a else stepKey a ≤ stepKey b

/-- A list in the direction of the options. -/
def turned {α : Type} (o : Options) (items : List α) : List α :=
  if o.isDescending then items.reverse else items

/-- Steps sorted by position, forwards. -/
def sortSteps (ms : List Member) : List Member := stableSort (fun a b => stepKey a ≤ stepKey b) ms

theorem arrangeSteps_view {o : Options} (h : o.sortKeyframes = true) {α : Type} (view : α → Member)
    (items : List α) : arrangeSteps o view items =
      turned o (stableSort (fun a b => stepKey (view a) ≤ stepKey (view b)) items) := by
  simp only [arrangeSteps, h, Bool.not_true, Bool.false_eq_true, if_false]
  rfl

theorem arrangeSteps_eq {o : Options} (h : o.sortKeyframes = true) (ms : List Member) :
    arrangeSteps o id ms = turned o (sortSteps ms) := arrangeSteps_view h id ms

theorem sortSteps_pairwise (ms : List Member) :
    (sortSteps ms).Pairwise fun a b => stepKey a ≤ stepKey b := by
  refine (stableSort_pairwise (fun a b => ?_) (fun a b c => ?_) ms).imp of_decide_eq_true
  · simpa only [decide_eq_true_eq] using Int.le_total (stepKey a) (stepKey b)
  · simpa only [decide_eq_true_eq] using Int.le_trans

theorem sortSteps_filter (position : Int) (ms : List Member) :
    (sortSteps ms).filter (isAt position) = ms.filter (isAt position) := by
  refine stableSort_filter (fun a b ha hb => decide_eq_true (Int.le_of_eq ?_)) ms
  exact (eq_of_beq ha).trans (eq_of_beq hb).symm

theorem isAt_self (m : Member) : isAt (stepKey m) m = true := beq_self_eq_true _

theorem mem_of_filter_eq {ms ms' : List Member}
    (h : ∀ position, ms.filter (isAt position) = ms'.filter (isAt position)) {m : Member} (hm : m ∈ ms) :
    m ∈ ms' := by
  have hat : m ∈ ms.filter (isAt (stepKey m)) := List.mem_filter.mpr ⟨hm, isAt_self m⟩
  rw [h] at hat
  exact (List.mem_filter.mp hat).1

/-- Steps in the order of their positions are told by the steps at each position. -/
theorem eq_of_filter_eq {ms ms' : List Member} (h : ms.Pairwise fun a b => stepKey a ≤ stepKey b)
    (h' : ms'.Pairwise fun a b => stepKey a ≤ stepKey b)
    (hsame : ∀ position, ms.filter (isAt position) = ms'.filter (isAt position)) : ms = ms' := by
  have hfirst {m m' : Member} {rest : List Member} (hm : ∀ x ∈ rest, stepKey m ≤ stepKey x)
      (hmem : m' ∈ m :: rest) : stepKey m ≤ stepKey m' := by
    rcases List.mem_cons.mp hmem with rfl | hin
    · exact Int.le_refl _
    · exact hm m' hin
  induction ms generalizing ms' with
  | nil =>
    exact (List.eq_nil_iff_forall_not_mem.mpr fun m hm =>
      List.not_mem_nil (mem_of_filter_eq (fun position => (hsame position).symm) hm)).symm
  | cons m rest ih =>
    cases ms' with
    | nil => exact absurd (mem_of_filter_eq hsame List.mem_cons_self) List.not_mem_nil
    | cons m' rest' =>
      obtain ⟨hm, hrest⟩ := List.pairwise_cons.mp h
      obtain ⟨hm', hrest'⟩ := List.pairwise_cons.mp h'
      -- both heads are at the first position, so each is the first step at it
      have hle := hfirst hm (mem_of_filter_eq (fun position => (hsame position).symm) List.mem_cons_self)
      have hge := hfirst hm' (mem_of_filter_eq hsame List.mem_cons_self)
      have hat : isAt (stepKey m) m' = true := beq_iff_eq.mpr (Int.le_antisymm hge hle)
      have hheads := hsame (stepKey m)
      rw [List.filter_cons_of_pos (isAt_self m), List.filter_cons_of_pos hat] at hheads
      obtain rfl : m = m' := (List.cons.inj hheads).1
      have hothers : ∀ position, rest.filter (isAt position) = rest'.filter (isAt position) := by
        intro position
        have hposition := hsame position
        rw [List.filter_cons, List.filter_cons] at hposition
        split at hposition
        · exact (List.cons.inj hposition).2
        · exact hposition
      rw [ih hrest hrest' hothers]

section Arranging

variable {o : Options} (hkeyframes : o.sortKeyframes = true)
include hkeyframes

theorem arrangeSteps_pairwise (ms : List Member) : (arrangeSteps o id ms).Pairwise (StepsInOrder o) := by
  rw [arrangeSteps_eq hkeyframes]
  unfold turned StepsInOrder
  split
  · exact List.pairwise_reverse.mpr (sortSteps_pairwise ms)
  · exact sortSteps_pairwise ms

/-- Backwards, the steps at a position are turned around. -/
theorem arrangeSteps_filter (position : Int) (ms : List Member) :
    (arrangeSteps o id ms).filter (isAt position) = turned o (ms.filter (isAt position)) := by
  rw [arrangeSteps_eq hkeyframes]
  unfold turned
  split
  · rw [List.filter_reverse, sortSteps_filter]
  · exact sortSteps_filter position ms

/-- Steps in order are left alone exactly if those at each position are the same turned around. -/
theorem arrangeSteps_self_iff {ms : List Member} (h : ms.Pairwise (StepsInOrder o)) :
    arrangeSteps o id ms = ms ↔ (o.isDescending = true → ∀ position,
      (ms.filter (isAt position)).reverse = ms.filter (isAt position)) := by
  have hturned : arrangeSteps o id ms = ms ↔ ∀ position,
      turned o (ms.filter (isAt position)) = ms.filter (isAt position) := by
    constructor
    · intro heq position
      rw [← arrangeSteps_filter hkeyframes, heq]
    · intro hfilter
      rw [arrangeSteps_eq hkeyframes]
      unfold turned at hfilter ⊢
      unfold StepsInOrder at h
      split at h
      · rename_i hdescending
        simp only [hdescending, if_true] at hfilter ⊢
        rw [List.reverse_eq_iff]
        refine eq_of_filter_eq (sortSteps_pairwise ms) (List.pairwise_reverse.mpr h) fun position => ?_
        rw [sortSteps_filter, List.filter_reverse, hfilter]
      · rename_i hascending
        rw [if_neg hascending]
        exact eq_of_filter_eq (sortSteps_pairwise ms) h fun position => sortSteps_filter position ms
  rw [hturned]
  unfold turned
  cases o.isDescending with
  | false => simp
  | true => simp

end Arranging

end MemberOrder.Order

namespace MemberOrder.Sorter

open MemberOrder.Order

variable {o : Options}

/-! ## Steps in a block -/

/-- A member with a usable name that is no spread. -/
def Regular (m : Member) : Prop := m.info.hasName = true ∧ m.info.isSpread = false

/-- A step: a block that is regular. -/
structure IsStep (m : Member) : Prop where
  block : m.children?.isSome = true
  regular : Regular m

/-- What was read from style sheets is regular throughout, so the blocks among it are steps. -/
theorem regular_of_readFrom {m : Member} (h : m.ReadFrom .css) : m.Throughout Regular := by
  obtain ⟨d, hheld⟩ := Style.held_of_readFrom h
  exact hheld.imp fun _ hm => hm.regular

theorem isStep_of_readFrom {m : Member} (h : m.ReadFrom .css) (hblock : m.children?.isSome = true) :
    IsStep m := ⟨hblock, (regular_of_readFrom h).self⟩

/-- How a member of a keyframes block is sorted inside. -/
def insideStep (o : Options) (m : Member) : Except SortError Member :=
  if o.sortNestedObjects then sortInside .style o none m else .ok m

/-- Around no spreads, arranged items are dealt out as they come. -/
theorem refill_regular {α : Type} {view : α → Member} {items arranged : List α}
    (h : ∀ x ∈ items, (view x).info.isSpread = false) (hlength : arranged.length = items.length) :
    refill view items arranged = arranged := by
  induction items generalizing arranged with
  | nil => exact (List.length_eq_zero_iff.mp hlength).symm
  | cons x rest ih =>
    cases arranged with
    | nil => cases hlength
    | cons y others =>
      rw [refill, if_neg (by rw [h x List.mem_cons_self]; decide)]
      exact congrArg (y :: ·) (ih (fun z hz => h z (List.mem_cons_of_mem x hz)) (Nat.succ.inj hlength))

theorem arrangeAround_regular {sorter : Sorter} {context : Option EntityKind} {items r : List Nested}
    (h : ∀ x ∈ items, x.1.info.isSpread = false)
    (harrange : sorter.arrange o context Prod.fst items = .ok r) :
    sorter.arrangeAround o context Prod.fst items = .ok r := by
  have hall : (items.filter fun x => !x.1.info.isSpread) = items :=
    List.filter_eq_self.mpr fun x hx => by rw [h x hx]; rfl
  unfold arrangeAround
  rw [hall, harrange]
  exact congrArg Except.ok (refill_regular h (arrange_perm harrange).length_eq)

/-- A level of regular members is arranged, and each of its members sorted inside. -/
theorem arrangeLevel_regular {sorter : Sorter} {context : Option EntityKind} {entity : Option String}
    {checksNames : Bool} {items r : List Nested} (h : ∀ x ∈ items, Regular x.1)
    (hsome : context = some .cssKeyframes → items ≠ [])
    (harrange : sorter.arrange o context Prod.fst items = .ok r) :
    sorter.arrangeLevel o context entity checksNames items = r.mapM Prod.snd := by
  have hlacks : sorter.lacksSteps context items = false := by
    unfold lacksSteps
    cases hcontext : context == some .cssKeyframes with
    | false => simp
    | true =>
      obtain ⟨x, rest, rfl⟩ := List.exists_cons_of_ne_nil (hsome (eq_of_beq hcontext))
      simp [(h x List.mem_cons_self).2]
  rw [arrangeLevel_checked hlacks fun _ x hx => (h x hx).1,
    arrangeAround_regular (fun x hx => (h x hx).2) harrange]
  rfl

/-- Steps beside what sorting them inside gives are arranged like the steps. -/
theorem arrangeSteps_nested (inside : Member → Except SortError Member) (ms : List Member) :
    arrangeSteps o Prod.fst (ms.map fun m => (m, inside m)) =
      (arrangeSteps o id ms).map fun m => (m, inside m) := by
  cases hkeyframes : o.sortKeyframes with
  | false => simp [arrangeSteps, hkeyframes]
  | true =>
    rw [arrangeSteps_eq hkeyframes, arrangeSteps_view hkeyframes, sortSteps,
      stableSort_map (f := fun m => (m, inside m)) fun _ _ => rfl]
    unfold turned
    split
    · exact List.map_reverse.symm
    · rfl

/-- Steps are arranged as they are, and each of them is sorted inside. -/
theorem sortMembers_steps (name : String) {ms : List Member}
    (hsteps : ∀ m ∈ ms, IsStep m) :
    Sorter.style.sortMembers o (some (.cssKeyframes, name)) ms = (arrangeSteps o id ms).mapM (insideStep o) := by
  have hitems : (if o.sortNestedObjects then sortEachInside .style o none ms
      else ms.map fun m => (m, Except.ok m)) = ms.map fun m => (m, insideStep o m) := by
    unfold insideStep
    cases o.sortNestedObjects with
    | false => rfl
    | true => exact sortEachInside_eq none ms
  cases ms with
  | nil =>
    have hnone : arrangeSteps o id [] = [] := (arrangeSteps_perm o id []).eq_nil
    rw [hnone]
    rfl
  | cons first rest =>
    have harrange : Sorter.style.arrange o (some .cssKeyframes) Prod.fst
        ((first :: rest).map fun m => (m, insideStep o m)) =
          .ok ((arrangeSteps o id (first :: rest)).map fun m => (m, insideStep o m)) := by
      rw [← arrangeSteps_nested]
      show arrangeStyle o (some .cssKeyframes) Prod.fst _ = _
      simp [arrangeStyle, (hsteps first List.mem_cons_self).block]
    have hregular : ∀ x ∈ (first :: rest).map fun m => (m, insideStep o m), Regular x.1 := by
      intro x hx
      obtain ⟨m, hm, rfl⟩ := List.mem_map.mp hx
      exact (hsteps m hm).regular
    unfold sortMembers
    rw [if_neg (by simp)]
    simp only [Option.map_some, isDocumentWide, Bool.false_eq_true, if_false, hitems]
    rw [arrangeLevel_regular hregular (fun _ => by simp) harrange, List.mapM_map]
    rfl

/-! ## Inside steps -/

mutual

/-- Without natural sorting, regular members can be sorted inside. -/
theorem sortInside_regular (hplain : o.naturalSort = false) (entity : Option String) {m : Member}
    (h : m.Throughout Regular) : ∃ m', sortInside .style o entity m = .ok m' := by
  cases m with
  | leaf i => exact ⟨_, rfl⟩
  | group i children =>
    rw [sortInside]
    split
    · exact ⟨_, rfl⟩
    · have harrange : Sorter.style.arrange o none Prod.fst (sortEachInside .style o entity children) = _ :=
        arrangeDeclarations_sorts hplain _
      have hfst : (sortEachInside .style o entity children).map Prod.fst = children :=
        (sortEachInside_spec entity children).2
      have hregular : ∀ x ∈ sortEachInside .style o entity children, Regular x.1 := fun x hx =>
        (eachThroughout_iff.mp h.2 x.1 (hfst ▸ List.mem_map_of_mem hx)).self
      have hinside := sortEachInside_regular hplain entity h.2
      obtain ⟨sorted, hsorted⟩ := mapM_ok fun x hx => hinside x ((stableSort_perm _ _).mem_iff.mp hx)
      have hnone : (none : Option EntityKind) = some .cssKeyframes →
          sortEachInside .style o entity children ≠ [] := fun h => by cases h
      have hlevel : Sorter.style.arrangeLevel o none entity true (sortEachInside .style o entity children) =
          .ok sorted := (arrangeLevel_regular hregular hnone harrange).trans hsorted
      refine ⟨.group i sorted, ?_⟩
      show (Sorter.style.arrangeLevel o none entity true _ >>= _) = _
      rw [hlevel]
      rfl

theorem sortEachInside_regular (hplain : o.naturalSort = false) (entity : Option String)
    {ms : List Member} (h : EachThroughout Regular ms) :
    ∀ x ∈ sortEachInside .style o entity ms, ∃ m', x.2 = .ok m' := by
  cases ms with
  | nil => exact fun x hx => absurd hx List.not_mem_nil
  | cons m rest =>
    rw [sortEachInside]
    exact List.forall_mem_cons.mpr
      ⟨sortInside_regular hplain entity h.1, sortEachInside_regular hplain entity h.2⟩

end

theorem insideStep_ok (hplain : o.naturalSort = false) {m : Member} (h : m.Throughout Regular) :
    ∃ m', insideStep o m = .ok m' := by
  unfold insideStep
  split
  · exact sortInside_regular hplain none h
  · exact ⟨m, rfl⟩

/-- Sorting a step inside arranges its children. -/
theorem insideStep_arranged {m m' : Member} (h : insideStep o m = .ok m') : m.Arranged m' := by
  unfold insideStep at h
  split at h
  · exact sortInside_arranged h
  · cases h
    exact .refl _

/-- Without natural sorting, a step that was sorted inside is left alone. -/
theorem insideStep_again (hplain : o.naturalSort = false) {m m' : Member} (h : insideStep o m = .ok m') :
    insideStep o m' = .ok m' := by
  unfold insideStep at h ⊢
  cases hnested : o.sortNestedObjects with
  | false => rfl
  | true =>
    rw [hnested, if_pos rfl] at h
    exact (sortInside_again hplain (by decide) h).2

/-- Steps that are arranged inside are steps at the same positions. -/
theorem steps_of_eachArranged {ms ms' : List Member} (h : EachArranged ms ms') (hsteps : ∀ m ∈ ms, IsStep m) :
    (∀ m ∈ ms', IsStep m) ∧ ms'.map stepKey = ms.map stepKey := by
  induction ms generalizing ms' with
  | nil =>
    cases h
    exact ⟨hsteps, rfl⟩
  | cons m rest ih =>
    cases h with
    | cons hm hrest =>
      obtain ⟨hfirst, hothers⟩ := List.forall_mem_cons.mp hsteps
      obtain ⟨hall, hkeys⟩ := ih hrest hothers
      cases hm with
      | leaf i => cases hfirst.block
      | group i hpins heach =>
        exact ⟨List.forall_mem_cons.mpr ⟨⟨rfl, hfirst.regular⟩, hall⟩,
          congrArg₂ List.cons (stepKey_of_info rfl) hkeys⟩

/-- What each of some steps is sorted to, which is left alone without natural sorting. -/
theorem mapM_insideStep {ms r : List Member} (h : ms.mapM (insideStep o) = .ok r) :
    EachArranged ms r ∧ (o.naturalSort = false → ∀ m ∈ r, insideStep o m = .ok m) := by
  induction ms generalizing r with
  | nil =>
    cases h
    exact ⟨.nil, fun _ _ hm => absurd hm List.not_mem_nil⟩
  | cons m rest ih =>
    rw [List.mapM_cons] at h
    obtain ⟨m', hm', h⟩ := bind_ok h
    obtain ⟨others, hothers, h⟩ := bind_ok h
    cases h
    obtain ⟨heach, hagain⟩ := ih hothers
    exact ⟨.cons (insideStep_arranged hm') heach, fun hplain =>
      List.forall_mem_cons.mpr ⟨insideStep_again hplain hm', hagain hplain⟩⟩

/-- Steps that are left alone inside are only arranged. -/
theorem mapM_insideStep_self {ms : List Member} (h : ∀ m ∈ ms, insideStep o m = .ok m) :
    ms.mapM (insideStep o) = .ok ms := by
  induction ms with
  | nil => rfl
  | cons m rest ih =>
    obtain ⟨hm, hrest⟩ := List.forall_mem_cons.mp h
    rw [List.mapM_cons, hm, ih hrest]
    rfl

/-! ## Sorting steps -/

/-- Steps that keyframes are sorted by come out in the order of their positions, whatever the other
options are, each with its children arranged. Forwards the steps at each position keep their order,
backwards they are turned around. Without natural sorting they can always be sorted; and sorting steps
once more that are left alone inside, as they are without natural sorting, leaves them as they are exactly
if, backwards, the steps at each position are the same when turned around. -/
theorem sortMembers_orders_steps (o : Options) (hkeyframes : o.sortKeyframes = true) (name : String)
    (ms : List Member) (hsteps : ∀ m ∈ ms, IsStep m) :
    (o.naturalSort = false → (∀ m ∈ ms, m.Throughout Regular) →
      ∃ ms', Sorter.style.sortMembers o (some (.cssKeyframes, name)) ms = .ok ms') ∧
    ∀ ms', Sorter.style.sortMembers o (some (.cssKeyframes, name)) ms = .ok ms' →
      (∃ mid, ms.Perm mid ∧ EachArranged mid ms' ∧
        ∀ position, mid.filter (isAt position) = turned o (ms.filter (isAt position))) ∧
      ms'.Pairwise (StepsInOrder o) ∧
      (o.naturalSort = false → ∀ m ∈ ms', insideStep o m = .ok m) ∧
      ((∀ m ∈ ms', insideStep o m = .ok m) →
        (Sorter.style.sortMembers o (some (.cssKeyframes, name)) ms' = .ok ms' ↔
          (o.isDescending = true → ∀ position,
            (ms'.filter (isAt position)).reverse = ms'.filter (isAt position)))) := by
  have hperm : (arrangeSteps o id ms).Perm ms := arrangeSteps_perm o id ms
  rw [sortMembers_steps name hsteps]
  refine ⟨fun hplain hregular => ?_, fun ms' hsorted => ?_⟩
  · exact mapM_ok fun m hm => insideStep_ok hplain (hregular m (hperm.mem_iff.mp hm))
  · obtain ⟨heach, halone⟩ := mapM_insideStep hsorted
    obtain ⟨hsteps', hkeys⟩ := steps_of_eachArranged heach fun m hm => hsteps m (hperm.mem_iff.mp hm)
    -- the direction is told by the keys alone
    have hordered : ms'.Pairwise (StepsInOrder o) := by
      have hmid := arrangeSteps_pairwise hkeyframes ms
      have hrel (xs : List Member) : xs.Pairwise (StepsInOrder o) ↔ (xs.map stepKey).Pairwise fun a b =>
          if o.isDescending then b ≤ a else a ≤ b := by
        rw [List.pairwise_map]
        rfl
      rw [hrel, hkeys, ← hrel]
      exact hmid
    refine ⟨⟨_, hperm.symm, heach, fun position => arrangeSteps_filter hkeyframes position ms⟩, hordered,
      halone, fun hinside => ?_⟩
    have hagain : Sorter.style.sortMembers o (some (.cssKeyframes, name)) ms' =
        .ok (arrangeSteps o id ms') := by
      rw [sortMembers_steps name hsteps']
      refine mapM_insideStep_self fun m hm => hinside m ?_
      exact (arrangeSteps_perm o id ms').mem_iff.mp hm
    rw [hagain, Except.ok.injEq]
    exact arrangeSteps_self_iff hkeyframes hordered

/-- Three steps of which the last two are at one position, out of order inside. -/
def turnedSteps : List Member :=
  (readSource .css (Text.ofString
    "@keyframes x\x7bto\x7bz:1;y:2\x7dfrom\x7b\x7d0%\x7b\x7d\x7d")).entities.flatMap (·.members)

theorem turnedSteps_read : ∀ m ∈ turnedSteps, m.ReadFrom .css := by
  intro m hm
  obtain ⟨e, he, hm⟩ := List.mem_flatMap.mp hm
  exact ⟨.css, _, rfl, e, he, e.span, e.members, .top, hm⟩

/-- Forwards the two steps at one position keep their order, and sorting again changes nothing. -/
theorem sortMembers_orders_steps_forwards :
    ((Sorter.style.sortMembers { fileType := .css, sortKeyframes := true } (some (.cssKeyframes, "x"))
        turnedSteps).toOption.map nameTrees).map
      (sameTrees [.node "from" [], .node "0%" [], .node "to" [.node "y" [], .node "z" []]]) = some true ∧
    ∃ ms', Sorter.style.sortMembers { fileType := .css, sortKeyframes := true }
        (some (.cssKeyframes, "x")) turnedSteps = .ok ms' ∧
      ms'.Pairwise (StepsInOrder { fileType := .css, sortKeyframes := true }) ∧
      Sorter.style.sortMembers { fileType := .css, sortKeyframes := true }
        (some (.cssKeyframes, "x")) ms' = .ok ms' := by
  have hblocks : turnedSteps.all (·.children?.isSome) = true := by decide +kernel
  have hsteps : ∀ m ∈ turnedSteps, IsStep m := fun m hm =>
    isStep_of_readFrom (turnedSteps_read m hm) (List.all_eq_true.mp hblocks m hm)
  obtain ⟨hsorts, hsorted⟩ := sortMembers_orders_steps { fileType := .css, sortKeyframes := true } rfl "x"
    turnedSteps hsteps
  obtain ⟨ms', hms'⟩ := hsorts rfl fun m hm => regular_of_readFrom (turnedSteps_read m hm)
  obtain ⟨-, hordered, halone, hagain⟩ := hsorted ms' hms'
  refine ⟨by decide +kernel, ms', hms', hordered, (hagain (halone rfl)).mpr fun h => ?_⟩
  cases h

/-- Backwards the two steps at one position trade places each time they are sorted, although they are in
order. -/
theorem sortMembers_turns_ties :
    let sort := Sorter.style.sortMembers
      { fileType := .css, sortKeyframes := true, sortOrder := .descending } (some (.cssKeyframes, "x"))
    let names (r : Except SortError (List Member)) := r.toOption.map (·.map (·.name))
    names (.ok turnedSteps) = some ["to", "from", "0%"] ∧
      turnedSteps.map stepKey = [(Binary64.ofDecimal false 100 0).key, 0, 0] ∧
      names (sort turnedSteps) = some ["to", "0%", "from"] ∧
      names (sort turnedSteps >>= sort) = some ["to", "from", "0%"] := by
  decide +kernel

end MemberOrder.Sorter
