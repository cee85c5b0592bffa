/-
  The comparison chain as a total preorder, and sorting by it.

  A stable sort keeps the items of a class as they stand if any two of them may stand either way
  (`stableSort_filter`). Without natural sorting the chain is a lexicographic order of keys, so it always
  answers, turns around when its members trade places and is transitive; sorting by it permutes the
  members, puts each before those that it does not follow, and leaves ties in the order in which they
  came (`sortGroup_sorts`).
-/
import MemberOrder.Proofs.Order.Comparing

/-!
## Arranging in parts, twice

An arrangement is `Steady` when it permutes its items, leaves alone what it has arranged and looks at
nothing but the records of their members. Sorting by an order of records is steady (`sortBy_steady`).
All other arrangements take the items apart by tests that exclude each other, arrange each part and
join the parts (`joinParts`). In what was joined each test finds its part again
(`joinParts_again`), so an arrangement in steady parts is steady if what was joined is taken apart
by the same tests as before (`Steady.of_parts`).
-/

namespace MemberOrder.Order

open Std

/-- A way of arranging items with a member behind each. -/
abbrev Arrangement : Type 1 := (α : Type) → (α → Member) → List α → Except Fault (List α)

/-- An arrangement that permutes its items, leaves alone what it has arranged, and sees of the members
only their records. -/
structure Steady (arrange : Arrangement) : Prop where
  perm {α : Type} {view : α → Member} {items r : List α} (h : arrange α view items = .ok r) :
    r.Perm items
  again {α : Type} {view : α → Member} {items r : List α} (h : arrange α view items = .ok r) :
    arrange α view r = .ok r
  along {α β : Type} {view : α → Member} {view' : β → Member} (f : α → β)
    (hf : ∀ x, (view' (f x)).info = (view x).info) (items : List α) :
    arrange β view' (items.map f) = (arrange α view items).map (List.map f)

theorem steady_ok : Steady fun _ _ items => .ok items where
  perm h := by
    cases h
    exact .refl _
  again h := by
    cases h
    rfl
  along _ _ _ := rfl

/-! ## Sorting -/

section Sorts

variable {α β : Type} {le le' : α → α → Bool}

theorem insertSorted_congr {x : α} {ys : List α} (h : ∀ y ∈ ys, le x y = le' x y) :
    insertSorted le x ys = insertSorted le' x ys := by
  induction ys with
  | nil => rfl
  | cons y rest ih =>
    rw [insertSorted, insertSorted, h y List.mem_cons_self,
      ih fun z hz => h z (List.mem_cons_of_mem y hz)]

/-- Relations that agree on the items sort them alike. -/
theorem stableSort_congr {items : List α} (h : ∀ a ∈ items, ∀ b ∈ items, le a b = le' a b) :
    stableSort le items = stableSort le' items := by
  induction items with
  | nil => rfl
  | cons x rest ih =>
    rw [stableSort, stableSort, ← ih fun a ha b hb =>
      h a (List.mem_cons_of_mem x ha) b (List.mem_cons_of_mem x hb)]
    refine insertSorted_congr fun y hy => h x List.mem_cons_self y (List.mem_cons_of_mem x ?_)
    exact (stableSort_perm le rest).mem_iff.mp hy

theorem insertSorted_map {le' : β → β → Bool} {f : α → β} (h : ∀ a b, le' (f a) (f b) = le a b) (x : α)
    (ys : List α) : insertSorted le' (f x) (ys.map f) = (insertSorted le x ys).map f := by
  induction ys with
  | nil => rfl
  | cons y rest ih =>
    rw [List.map_cons, insertSorted, insertSorted, h, ih]
    split <;> rfl

theorem stableSort_map {le' : β → β → Bool} {f : α → β} (h : ∀ a b, le' (f a) (f b) = le a b)
    (items : List α) : stableSort le' (items.map f) = (stableSort le items).map f := by
  induction items with
  | nil => rfl
  | cons x rest ih => rw [List.map_cons, stableSort, stableSort, ih, insertSorted_map h]

end Sorts

theorem sortByRank_steady (rank : MemberInfo → Nat) :
    Steady fun _ view items => .ok (sortByRank (fun x => rank (view x).info) items) where
  perm h := by
    cases h
    exact stableSort_perm _ _
  again h := by
    cases h
    exact congrArg Except.ok (stableSort_self ((sortByRank_pairwise _ _).imp decide_eq_true))
  along f hf items := congrArg Except.ok (stableSort_map (fun a b => by simp only [hf]) items)

section Plain

variable {o : Options} (hplain : o.naturalSort = false) {α : Type} {view : α → Member}
  {cmp : MemberInfo → MemberInfo → Except Fault Ordering} {order : MemberInfo → MemberInfo → Ordering}
include hplain

/-- A comparison that answers on all the items sorts them by its answers. -/
theorem sortBy_plain {items : List α} (h : ∀ a ∈ items, ∀ b ∈ items,
      cmp (view a).info (view b).info = .ok (order (view a).info (view b).info)) :
    sortBy o cmp view items =
      .ok (stableSort (fun a b => (order (view a).info (view b).info).isLE) items) := by
  simp only [sortBy, hplain, Bool.false_eq_true, if_false]
  refine congrArg Except.ok (stableSort_congr fun a ha b hb => ?_)
  rw [h a ha b hb, allows_ok]

/-- What has been sorted by a comparison that answers as an order does stays as it is. -/
theorem sortBy_again [TransCmp order] {items r : List α} (h : ∀ a ∈ items, ∀ b ∈ items,
      cmp (view a).info (view b).info = .ok (order (view a).info (view b).info))
    (hr : sortBy o cmp view items = .ok r) : sortBy o cmp view r = .ok r := by
  have hmem {x : α} (hx : x ∈ r) : x ∈ items := (sortBy_perm hr).mem_iff.mp hx
  rw [sortBy_plain hplain h] at hr
  cases hr
  rw [sortBy_plain hplain fun a ha b hb => h a (hmem ha) b (hmem hb)]
  exact congrArg Except.ok (stableSort_self (stableSort_isLE (fun x => (view x).info) items))

theorem sortBy_along {β : Type} {view' : β → Member} (f : α → β)
    (hf : ∀ x, (view' (f x)).info = (view x).info) (items : List α) :
    sortBy o cmp view' (items.map f) = (sortBy o cmp view items).map (List.map f) := by
  simp only [sortBy, hplain, Bool.false_eq_true, if_false]
  exact congrArg Except.ok (stableSort_map (fun a b => by rw [hf, hf]) items)

theorem sortBy_steady [TransCmp order] (h : ∀ a b, cmp a b = .ok (order a b)) :
    Steady fun _ view items => sortBy o cmp view items where
  perm := sortBy_perm
  again := sortBy_again hplain fun _ _ _ _ => h _ _
  along := sortBy_along hplain

theorem sortGroup_steady : Steady fun _ view items => sortGroup o view items :=
  sortBy_steady hplain (compareMembers_plain hplain)

end Plain

/-! ## Parts -/

/-- A test, and how the items are arranged whose records pass it. -/
structure Part where
  test : MemberInfo → Bool
  arrange : Arrangement

/-- The items of a part. -/
def Part.of {α : Type} (part : Part) (view : α → Member) (items : List α) : List α :=
  items.filter fun x => part.test (view x).info

/-- Arranges the items of each of some parts and joins them. -/
def joinParts {α : Type} : List Part → (α → Member) → List α → Except Fault (List α)
  | [], _, _ => .ok []
  | part :: rest, view, items => do
    let arranged ← part.arrange α view (part.of view items)
    return arranged ++ (← joinParts rest view items)

/-- No record passes the tests of two parts. -/
def Apart (parts : List Part) : Prop :=
  parts.Pairwise fun p q => ∀ i, p.test i = true → q.test i = false

section Parts

variable {α β : Type} {view : α → Member} {parts : List Part}

theorem Part.of_map {view' : β → Member} (part : Part) {f : α → β}
    (hf : ∀ x, (view' (f x)).info = (view x).info) (items : List α) :
    part.of view' (items.map f) = (part.of view items).map f := by
  have hview : (fun x => part.test (view' x).info) ∘ f = fun x => part.test (view x).info := by
    funext x
    rw [Function.comp_apply, hf]
  rw [Part.of, Part.of, List.filter_map, hview]

theorem joinParts_congr {items items' : List α}
    (h : ∀ part ∈ parts, part.of view items = part.of view items') :
    joinParts parts view items = joinParts parts view items' := by
  induction parts with
  | nil => rfl
  | cons part rest ih =>
    rw [joinParts, joinParts, h _ List.mem_cons_self, ih fun p hp => h p (List.mem_cons_of_mem _ hp)]

/-- Steady parts that exclude each other are found again in what they were joined to. -/
theorem joinParts_again (hsteady : ∀ part ∈ parts, Steady part.arrange) (hapart : Apart parts)
    {items r : List α} (h : joinParts parts view items = .ok r) :
    (∀ x ∈ r, ∃ part ∈ parts, part.test (view x).info = true) ∧ joinParts parts view r = .ok r := by
  induction parts generalizing r with
  | nil =>
    cases h
    exact ⟨fun x hx => absurd hx List.not_mem_nil, rfl⟩
  | cons part rest ih =>
    obtain ⟨hfirst, hrest⟩ := List.pairwise_cons.mp hapart
    have hpart := hsteady part List.mem_cons_self
    rw [joinParts] at h
    obtain ⟨a, ha, h⟩ := bind_ok h
    obtain ⟨b, hb, h⟩ := bind_ok h
    cases h
    obtain ⟨hothers, hagain⟩ := ih (fun p hp => hsteady p (List.mem_cons_of_mem _ hp)) hrest hb
    -- the first part passes the first test only, the others do not pass it
    have hpass : ∀ x ∈ a, part.test (view x).info = true := fun x hx =>
      (List.mem_filter.mp ((hpart.perm ha).mem_iff.mp hx)).2
    have hfail : ∀ x ∈ b, part.test (view x).info = false := by
      intro x hx
      obtain ⟨p, hp, hpx⟩ := hothers x hx
      refine Bool.eq_false_iff.mpr fun hx => ?_
      rw [hfirst p hp _ hx] at hpx
      cases hpx
    refine ⟨fun x hx => ?_, ?_⟩
    · rcases List.mem_append.mp hx with hx | hx
      · exact ⟨part, List.mem_cons_self, hpass x hx⟩
      · obtain ⟨p, hp, hpx⟩ := hothers x hx
        exact ⟨p, List.mem_cons_of_mem _ hp, hpx⟩
    · have hhere : part.of view (a ++ b) = a := by
        rw [Part.of, List.filter_append, List.filter_eq_self.mpr hpass,
          List.filter_eq_nil_iff.mpr fun x hx => by simp [hfail x hx], List.append_nil]
      have hthere : joinParts rest view (a ++ b) = joinParts rest view b := by
        refine joinParts_congr fun p hp => ?_
        have hnone : p.of view a = [] := List.filter_eq_nil_iff.mpr fun x hx => by
          simp [hfirst p hp _ (hpass x hx)]
        show List.filter _ _ = _
        rw [List.filter_append]
        exact congrArg (· ++ p.of view b) hnone
      rw [joinParts, hhere, hpart.again ha, hthere, hagain]
      rfl

theorem joinParts_along {view' : β → Member} (hsteady : ∀ part ∈ parts, Steady part.arrange) (f : α → β)
    (hf : ∀ x, (view' (f x)).info = (view x).info) (items : List α) :
    joinParts parts view' (items.map f) = (joinParts parts view items).map (List.map f) := by
  induction parts with
  | nil => rfl
  | cons part rest ih =>
    rw [joinParts, joinParts, part.of_map hf, (hsteady part List.mem_cons_self).along f hf,
      ih fun p hp => hsteady p (List.mem_cons_of_mem _ hp)]
    cases part.arrange α view (part.of view items) with
    | error fault => rfl
    | ok a =>
      cases joinParts rest view items with
      | error fault => rfl
      | ok b => exact congrArg Except.ok List.map_append.symm

end Parts

/-- An arrangement in steady parts is steady if what it has arranged is taken apart as it was. -/
theorem Steady.of_parts {arrange : Arrangement} (parts : (α : Type) → (α → Member) → List α → List Part)
    (hperm : ∀ {α : Type} {view : α → Member} {items r : List α},
      arrange α view items = .ok r → r.Perm items)
    (hjoin : ∀ {α : Type} (view : α → Member) (items : List α),
      arrange α view items = joinParts (parts α view items) view items)
    (hsteady : ∀ {α : Type} (view : α → Member) (items : List α),
      ∀ part ∈ parts α view items, Steady part.arrange)
    (hapart : ∀ {α : Type} (view : α → Member) (items : List α), Apart (parts α view items))
    (hagain : ∀ {α : Type} {view : α → Member} {items r : List α},
      arrange α view items = .ok r → parts α view r = parts α view items)
    (halong : ∀ {α β : Type} {view : α → Member} {view' : β → Member} (f : α → β),
      (∀ x, (view' (f x)).info = (view x).info) → ∀ items,
      parts β view' (items.map f) = parts α view items) : Steady arrange where
  perm := hperm
  again {α view items r} h := by
    have hr := h
    rw [hjoin] at hr
    rw [hjoin, hagain h]
    exact (joinParts_again (hsteady view items) (hapart view items) hr).2
  along {α β view view'} f hf items := by
    rw [hjoin, hjoin, halong f hf]
    exact joinParts_along (hsteady view items) f hf items

/-- Two arrangements, one for the records that pass a test and one for those that do not. -/
theorem Steady.split {first second : Arrangement} (hfirst : Steady first) (hsecond : Steady second)
    (test : MemberInfo → Bool) : Steady fun α view items => do
      let a ← first α view (items.filter fun x => test (view x).info)
      let b ← second α view (items.filter fun x => !test (view x).info)
      return a ++ b := by
  refine .of_parts (fun _ _ _ => [⟨test, first⟩, ⟨(!test ·), second⟩]) ?_ ?_ ?_ ?_ (fun _ => rfl)
    (fun _ _ _ => rfl)
  · intro α view items r h
    obtain ⟨a, ha, h⟩ := bind_ok h
    obtain ⟨b, hb, h⟩ := bind_ok h
    cases h
    refine ((hfirst.perm ha).append (hsecond.perm hb)).trans ?_
    exact List.filter_append_perm (fun x => test (view x).info) items
  · intro α view items
    simp only [joinParts, Part.of]
    refine bind_congr fun a => ?_
    cases second α view (items.filter fun x => !test (view x).info) with
    | error fault => rfl
    | ok b => exact congrArg (fun c => Except.ok (a ++ c)) (List.append_nil b).symm
  · rintro α view items part hpart
    rcases List.mem_cons.mp hpart with rfl | hpart
    · exact hfirst
    · rw [List.mem_singleton.mp hpart]
      exact hsecond
  · exact fun _ _ => List.pairwise_pair.mpr fun i hi => congrArg not hi

/-! ## Parts by key -/

/-- The parts of the items with each of some keys, and a last one. -/
def keyedParts (key? : MemberInfo → Option String) (last : MemberInfo → Bool) (arrange : Arrangement)
    (keys : List String) : List Part :=
  keys.map (fun key => ⟨fun i => key? i == some key, arrange⟩) ++ [⟨last, arrange⟩]

theorem steady_of_mem_keyedParts {key? : MemberInfo → Option String} {last : MemberInfo → Bool}
    {arrange : Arrangement} (h : Steady arrange) {keys : List String} :
    ∀ part ∈ keyedParts key? last arrange keys, Steady part.arrange := by
  intro part hpart
  rcases List.mem_append.mp hpart with hpart | hpart
  · obtain ⟨key, -, rfl⟩ := List.mem_map.mp hpart
    exact h
  · rw [List.mem_singleton.mp hpart]
    exact h

theorem keyedParts_apart {key? : MemberInfo → Option String} {last : MemberInfo → Bool}
    {arrange : Arrangement} {keys : List String} (hnodup : keys.Nodup)
    (hlast : ∀ key ∈ keys, ∀ i, key? i = some key → last i = false) :
    Apart (keyedParts key? last arrange keys) := by
  refine List.pairwise_append.mpr ⟨?_, List.pairwise_singleton _ _, fun part hpart part' hpart' => ?_⟩
  · exact List.pairwise_map.mpr (pairwise_of_nodup key? hnodup)
  · obtain ⟨key, hkey, rfl⟩ := List.mem_map.mp hpart
    rw [List.mem_singleton.mp hpart']
    exact fun i hi => hlast key hkey i (eq_of_beq hi)

/-- The items with a key, arranged, if they can be. -/
def keyedChunk (key? : MemberInfo → Option String) (arrange : Arrangement) {α : Type}
    (view : α → Member) (items : List α) (key : String) : List α :=
  (arrange α view (items.filter fun x => key? (view x).info == some key)).toOption.getD []

/-- What is joined are the items of each key, arranged, and the last part. -/
theorem joinParts_keyedParts {key? : MemberInfo → Option String} {last : MemberInfo → Bool}
    {arrange : Arrangement} {keys : List String} {α : Type} {view : α → Member} {items r : List α}
    (h : joinParts (keyedParts key? last arrange keys) view items = .ok r) :
    ∃ others, r = keys.flatMap (keyedChunk key? arrange view items) ++ others ∧
      (∀ key ∈ keys, arrange α view (items.filter fun x => key? (view x).info == some key) =
        .ok (keyedChunk key? arrange view items key)) ∧
      arrange α view (items.filter fun x => last (view x).info) = .ok others := by
  induction keys generalizing r with
  | nil =>
    obtain ⟨others, hothers, h⟩ := bind_ok h
    cases h
    exact ⟨others, List.append_nil others, fun _ hkey => absurd hkey List.not_mem_nil, hothers⟩
  | cons key rest ih =>
    obtain ⟨chunk, hchunk, h⟩ := bind_ok h
    obtain ⟨joined, hjoined, h⟩ := bind_ok h
    cases h
    obtain ⟨others, rfl, hkeys, hothers⟩ := ih hjoined
    have hkey : keyedChunk key? arrange view items key = chunk :=
      congrArg (fun result => result.toOption.getD []) hchunk
    refine ⟨others, ?_, fun key' hkey' => ?_, hothers⟩
    · rw [List.flatMap_cons, hkey, List.append_assoc]
    · rcases List.mem_cons.mp hkey' with rfl | hkey'
      · rw [hkey]
        exact hchunk
      · exact hkeys key' hkey'

end MemberOrder.Order

/-! ## The comparison chain as a total preorder, and sorting by it -/

namespace MemberOrder.Order

open Std

/-! ## Stability -/

section Stable

variable {α : Type} {le : α → α → Bool} {p : α → Bool}

theorem insertSorted_filter {x : α} {ys : List α}
    (h : p x = true → ∀ y ∈ ys, p y = true → le x y = true) :
    (insertSorted le x ys).filter p = (x :: ys).filter p := by
  induction ys with
  | nil => rfl
  | cons y rest ih =>
    rw [insertSorted]
    split
    · rfl
    · rename_i hpast
      rw [List.filter_cons, ih fun hx z hz => h hx z (List.mem_cons_of_mem y hz)]
      -- of two items that are out of order at most one is in the class
      cases hx : p x with
      | false => simp only [List.filter_cons, hx, Bool.false_eq_true, if_false]
      | true =>
        have hy : p y = false := Bool.eq_false_iff.mpr fun hy => hpast (h hx y List.mem_cons_self hy)
        simp only [List.filter_cons, hx, hy, Bool.false_eq_true, if_false, if_true]

/-- A class of items each of which may stand before each other one keeps its order. -/
theorem stableSort_filter_mem {xs : List α}
    (h : ∀ a ∈ xs, ∀ b ∈ xs, p a = true → p b = true → le a b = true) :
    (stableSort le xs).filter p = xs.filter p := by
  induction xs with
  | nil => rfl
  | cons x rest ih =>
    have hx : p x = true → ∀ y ∈ stableSort le rest, p y = true → le x y = true := fun hx y hy hpy =>
      h x List.mem_cons_self y (List.mem_cons_of_mem x ((stableSort_perm le rest).mem_iff.mp hy)) hx hpy
    have hrest : ∀ a ∈ rest, ∀ b ∈ rest, p a = true → p b = true → le a b = true := fun a ha b hb =>
      h a (List.mem_cons_of_mem x ha) b (List.mem_cons_of_mem x hb)
    rw [stableSort, insertSorted_filter hx, List.filter_cons, List.filter_cons, ih hrest]

theorem stableSort_filter (h : ∀ a b, p a = true → p b = true → le a b = true) (xs : List α) :
    (stableSort le xs).filter p = xs.filter p :=
  stableSort_filter_mem fun a _ b _ => h a b

end Stable

/-! ## The chain -/

/-- The chain lets the first of two members come first. -/
def MayPrecede (o : Options) (a b : MemberInfo) : Prop :=
  ∃ r, compareMembers o a b = .ok r ∧ r.isLE = true

/-- The chain finds nothing to choose between two members. -/
def ties (o : Options) (a b : MemberInfo) : Bool :=
  match compareMembers o a b with
  | .ok .eq => true
  | _ => false

section Plain

variable {o : Options} (hplain : o.naturalSort = false)
include hplain

theorem mayPrecede_iff (a b : MemberInfo) : MayPrecede o a b ↔ (memberOrder o a b).isLE = true := by
  rw [MayPrecede, compareMembers_plain hplain]
  constructor
  · rintro ⟨r, hr, hle⟩
    cases hr
    exact hle
  · exact fun hle => ⟨_, rfl, hle⟩

theorem ties_iff (a b : MemberInfo) : ties o a b = true ↔ memberOrder o a b = .eq := by
  rw [ties, compareMembers_plain hplain]
  cases memberOrder o a b <;> simp

/-- Members that tie with the same one may stand either way. -/
theorem mayPrecede_of_ties {a b c : MemberInfo} (hb : ties o a b = true) (hc : ties o a c = true) :
    (memberOrder o b c).isLE = true := by
  rw [ties_iff hplain] at hb hc
  have hback : memberOrder o b a = .eq := OrientedCmp.eq_comm.mp hb
  exact TransCmp.isLE_trans (by rw [hback]; rfl) (by rw [hc]; rfl)

end Plain

/-- Without natural sorting the chain is a total preorder of members and never fails. Any list is sorted
by it to a permutation in which each member may precede all that follow it, and members that tie keep
their order. -/
theorem sortGroup_sorts (o : Options) (hplain : o.naturalSort = false) :
    (∀ a, compareMembers o a a = .ok .eq) ∧
    (∀ a b, ∃ r, compareMembers o a b = .ok r ∧ compareMembers o b a = .ok r.swap) ∧
    (∀ a b c, MayPrecede o a b → MayPrecede o b c → MayPrecede o a c) ∧
    ∀ (α : Type) (view : α → Member) (items : List α), ∃ r, sortGroup o view items = .ok r ∧
      r.Perm items ∧ r.Pairwise (fun x y => MayPrecede o (view x).info (view y).info) ∧
      ∀ a, r.filter (fun x => ties o a (view x).info) = items.filter fun x => ties o a (view x).info := by
  refine ⟨fun a => ?_, fun a b => ?_, fun a b c hab hbc => ?_, fun α view items => ?_⟩
  · rw [compareMembers_plain hplain]
    exact congrArg Except.ok ReflCmp.compare_self
  · refine ⟨_, compareMembers_plain hplain a b, ?_⟩
    rw [compareMembers_plain hplain]
    exact congrArg Except.ok OrientedCmp.eq_swap
  · rw [mayPrecede_iff hplain] at hab hbc ⊢
    exact TransCmp.isLE_trans hab hbc
  · refine ⟨_, sortGroup_plain hplain view items, stableSort_perm _ _, ?_, fun a => ?_⟩
    · refine (stableSort_mayPrecede o view items).imp fun {x y} hxy => ?_
      exact (mayPrecede_iff hplain _ _).mpr hxy
    · refine stableSort_filter (fun x y hx hy => ?_) items
      exact mayPrecede_of_ties hplain hx hy

/-- Backwards and without regard to case, with a place for one name and numbers by value: the place and
the required members count before the names, and names that differ in case only tie. -/
theorem sortGroup_sorts_backwards :
    let o : Options := {
      sortOrder := .descending, caseSensitive := false
      prioritizeRequired := true, customOrder := ["z"] }
    let items : List MemberInfo := [{ name := "b" }, { name := "'10'" }, { name := "c", optional := true },
      { name := "9.5" }, { name := "B" }, { name := "z", optional := true }]
    o.naturalSort = false ∧
      (sortGroup o Member.leaf items).toOption.map (·.map (·.name)) =
        some ["z", "b", "B", "'10'", "9.5", "c"] ∧
      ∃ r, sortGroup o Member.leaf items = .ok r ∧ r.Perm items ∧
        r.Pairwise (fun x y => MayPrecede o x y) ∧
        r.filter (ties o { name := "b" }) = items.filter (ties o { name := "b" }) := by
  intro o items
  have hnames : (sortGroup o Member.leaf items).toOption.map (·.map (·.name)) =
      some ["z", "b", "B", "'10'", "9.5", "c"] := by
    decide
  obtain ⟨-, -, -, hsorts⟩ := sortGroup_sorts o rfl
  obtain ⟨r, hr, hperm, horder, hties⟩ := hsorts MemberInfo Member.leaf items
  exact ⟨rfl, hnames, r, hr, hperm, horder, hties { name := "b" }⟩

end MemberOrder.Order
