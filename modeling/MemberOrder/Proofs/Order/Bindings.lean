/-
  Sorting and the anchors that aliases are bound to.

  An alias in an entry is bound to the last entry at or before it that defines its name (`binder?`). The
  lifting of anchors works on the entries that are no spreads, before the spreads are put back at their
  places. So it keeps an anchor ahead of its aliases only between two entries that are both spreads or
  both none, and only if the entries that are none come in an order that it can reach, that is if none
  of them uses a name that a later one defines. Then the binder of every such alias stays at or before
  it, and it stays the binder if no other entry defines the name (`sortMembers_keeps_binders`).

  Where a merge key uses the anchor of an entry the binding can be lost (`sortMembers_unbinds_spread`).
-/
import MemberOrder.Proofs.Order.Permuting
import MemberOrder.Proofs.Order.Sorters

/-!
## Lifting anchors ends with every anchor before its aliases

An item needs another when it uses a name that the other defines. One step of the lifting does
nothing exactly when no item needs a later one (`liftOne?_eq_none`). The steps end when needs point
down in some rank, that is when the items could be put in such an order at all: the list is then
always some items that need nothing later, a chain of rising rank that has been lifted out of the
rest, and the rest (`Lifting`), and every step takes one item out of the rest (`liftOne?_lowers`). So
a list of `n` items takes at most `n` steps, fewer than the lifting is given (`liftAnchors_settled`).

An order in which nothing is needed ahead gives such a rank to every permutation of it, so that items
that came in such an order are lifted back into one, whatever they were sorted by
(`liftAnchors_perm_settled`).
-/

namespace MemberOrder.Order

variable {α : Type}

/-! ## One step -/

/-- An item uses a name that the other defines. -/
def Linked.Needs (x y : Linked α) : Prop := ∃ name ∈ x.aliases, name ∈ y.anchors

/-- No item needs a later one. -/
def Settled (items : List (Linked α)) : Prop := items.Pairwise fun x y => ¬ x.Needs y

theorem ownerOf?_eq_none {later : List (Linked α)} {aliases : List String} :
    ownerOf? later aliases = none ↔ ∀ y ∈ later, ∀ name ∈ aliases, name ∉ y.anchors := by
  induction aliases with
  | nil => simp [ownerOf?]
  | cons name rest ih =>
    rw [ownerOf?]
    cases hfound : later.findIdx? (·.anchors.contains name) with
    | none =>
      have hnone : ∀ y ∈ later, name ∉ y.anchors := by simpa using hfound
      simp only [ih, List.forall_mem_cons]
      exact ⟨fun h y hy => ⟨hnone y hy, h y hy⟩, fun h y hy => (h y hy).2⟩
    | some j =>
      obtain ⟨hj, hdefines, -⟩ := List.findIdx?_eq_some_iff_getElem.mp hfound
      refine iff_of_false (by simp) fun h => ?_
      exact h later[j] (List.getElem_mem hj) name List.mem_cons_self (by simpa using hdefines)

/-- The owner of a name that is found is an item that is needed. -/
theorem ownerOf?_eq_some {later : List (Linked α)} {aliases : List String} {j : Nat}
    (h : ownerOf? later aliases = some j) :
    ∃ owner, later[j]? = some owner ∧ ∃ name ∈ aliases, name ∈ owner.anchors := by
  induction aliases with
  | nil => cases h
  | cons name rest ih =>
    rw [ownerOf?] at h
    cases hfound : later.findIdx? (·.anchors.contains name) with
    | none =>
      rw [hfound] at h
      obtain ⟨owner, howner, used, hused, hdefines⟩ := ih h
      exact ⟨owner, howner, used, List.mem_cons_of_mem name hused, hdefines⟩
    | some i =>
      rw [hfound] at h
      cases h
      obtain ⟨hj, hdefines, -⟩ := List.findIdx?_eq_some_iff_getElem.mp hfound
      exact ⟨later[j], List.getElem?_eq_getElem hj, name, List.mem_cons_self, by simpa using hdefines⟩

theorem ownerOf?_aliases {x : Linked α} {later : List (Linked α)} :
    ownerOf? later x.aliases = none ↔ ∀ y ∈ later, ¬ x.Needs y := by
  rw [ownerOf?_eq_none]
  unfold Linked.Needs
  constructor
  · rintro h y hy ⟨name, hname, hdefines⟩
    exact h y hy name hname hdefines
  · intro h y hy name hname hdefines
    exact h y hy ⟨name, hname, hdefines⟩

/-- A step either lifts the first item that the head needs, or leaves the head and steps in the rest. -/
theorem liftOne?_cons {x : Linked α} {later moved : List (Linked α)}
    (h : liftOne? (x :: later) = some moved) :
    (∃ (j : Nat) (owner : Linked α), later[j]? = some owner ∧ x.Needs owner ∧
      moved = owner :: x :: later.eraseIdx j) ∨
    ((∀ y ∈ later, ¬ x.Needs y) ∧ ∃ others, liftOne? later = some others ∧ moved = x :: others) := by
  rw [liftOne?] at h
  cases howner : ownerOf? later x.aliases with
  | some j =>
    obtain ⟨owner, hj, hneeds⟩ := ownerOf?_eq_some howner
    simp only [howner, hj] at h
    cases h
    exact .inl ⟨j, owner, hj, hneeds, rfl⟩
  | none =>
    simp only [howner] at h
    obtain ⟨others, hothers, rfl⟩ := Option.map_eq_some_iff.mp h
    exact .inr ⟨ownerOf?_aliases.mp howner, others, hothers, rfl⟩

/-- Nothing is lifted exactly when no item needs a later one. -/
theorem liftOne?_eq_none {items : List (Linked α)} : liftOne? items = none ↔ Settled items := by
  unfold Settled
  induction items with
  | nil => simp [liftOne?]
  | cons x later ih =>
    rw [liftOne?, List.pairwise_cons, ← ownerOf?_aliases]
    cases howner : ownerOf? later x.aliases with
    | some j =>
      obtain ⟨owner, hj, -⟩ := ownerOf?_eq_some howner
      simp [hj]
    | none => simpa using ih

/-! ## The whole run -/

/-- Of each two items, one that needs the other is of higher rank. -/
def Ranked (rank : Linked α → Nat) (items : List (Linked α)) : Prop :=
  items.Pairwise fun x y => (x.Needs y → rank y < rank x) ∧ (y.Needs x → rank x < rank y)

theorem Ranked.perm {rank : Linked α → Nat} {items items' : List (Linked α)} (h : Ranked rank items)
    (hperm : items'.Perm items) : Ranked rank items' :=
  (hperm.pairwise_iff fun hxy => ⟨hxy.2, hxy.1⟩).mpr h

/-- A list in the course of lifting: items that need nothing later, then a chain of rising rank, then
`r` items that may still be lifted. -/
inductive Lifting (rank : Linked α → Nat) : (r : Nat) → List (Linked α) → Prop
  | chain (chain rest : List (Linked α))
      (hchain : chain.Pairwise fun x y => rank x < rank y) :
      Lifting rank rest.length (chain ++ rest)
  | settled {r : Nat} {x : Linked α} {later : List (Linked α)} (hx : ∀ y ∈ later, ¬ x.Needs y)
      (h : Lifting rank r later) : Lifting rank r (x :: later)

/-- What a chain lifts comes out of the rest: what a link of it needs is of lower rank than the links
after it. -/
theorem liftOne?_chain {rank : Linked α → Nat} {moved : List (Linked α)} (chain rest : List (Linked α))
    (hranked : Ranked rank (chain ++ rest)) (hchain : chain.Pairwise fun x y => rank x < rank y)
    (h : liftOne? (chain ++ rest) = some moved) : ∃ r < rest.length, Lifting rank r moved := by
  match chain, rest with
  | [], [] => cases h
  | [], x :: rest =>
    -- the first item of the rest starts a chain
    obtain ⟨r, hr, hmoved⟩ := liftOne?_chain [x] rest hranked
      (List.pairwise_singleton _ x) h
    exact ⟨r, Nat.lt_succ_of_lt hr, hmoved⟩
  | x :: chain, rest =>
    rw [List.cons_append] at hranked h
    obtain ⟨hx, hlater⟩ := List.pairwise_cons.mp hranked
    obtain ⟨hbelow, hchain'⟩ := List.pairwise_cons.mp hchain
    obtain ⟨j, owner, hj, hneeds, rfl⟩ | ⟨hsettled, others, hothers, rfl⟩ := liftOne?_cons h
    · have howner : rank owner < rank x := (hx owner (List.mem_of_getElem? hj)).1 hneeds
      have hout : chain.length ≤ j := by
        refine Nat.le_of_not_lt fun hin => ?_
        rw [List.getElem?_append_left hin] at hj
        have habove := hbelow owner (List.mem_of_getElem? hj)
        omega
      have hrest : j - chain.length < rest.length := by
        rw [List.getElem?_append_right hout] at hj
        exact (List.getElem?_eq_some_iff.mp hj).1
      refine ⟨(rest.eraseIdx (j - chain.length)).length, ?_, ?_⟩
      · rw [List.length_eraseIdx_of_lt hrest]
        omega
      · rw [List.eraseIdx_append_of_length_le hout]
        refine Lifting.chain (owner :: x :: chain) _ (List.pairwise_cons.mpr ⟨?_, hchain⟩)
        intro y hy
        rcases List.mem_cons.mp hy with rfl | hy
        · exact howner
        · exact Nat.lt_trans howner (hbelow y hy)
    · obtain ⟨r, hr, hmoved⟩ := liftOne?_chain chain rest hlater hchain' hothers
      refine ⟨r, hr, .settled (fun y hy => ?_) hmoved⟩
      exact hsettled y ((liftOne?_perm hothers).mem_iff.mp hy)
termination_by (rest.length, chain.length)

/-- A step lowers the number of items that may still be lifted. -/
theorem liftOne?_lowers {rank : Linked α → Nat} {r : Nat} {items moved : List (Linked α)}
    (hlifting : Lifting rank r items) (hranked : Ranked rank items) (h : liftOne? items = some moved) :
    ∃ r' < r, Lifting rank r' moved := by
  induction hlifting generalizing moved with
  | chain chain rest hchain => exact liftOne?_chain chain rest hranked hchain h
  | @settled r x later hx _ ih =>
    obtain ⟨j, owner, hj, hneeds, -⟩ | ⟨-, others, hothers, rfl⟩ := liftOne?_cons h
    · exact absurd hneeds (hx owner (List.mem_of_getElem? hj))
    · obtain ⟨r', hr', hmoved⟩ := ih (List.pairwise_cons.mp hranked).2 hothers
      refine ⟨r', hr', .settled (fun y hy => ?_) hmoved⟩
      exact hx y ((liftOne?_perm hothers).mem_iff.mp hy)

/-- A number of moves leads from one list to another. -/
inductive Lifts : (moves : Nat) → List (Linked α) → List (Linked α) → Prop
  | rest (items : List (Linked α)) : Lifts 0 items items
  | move {moves : Nat} {items moved result : List (Linked α)} (h : liftOne? items = some moved)
      (hmoved : Lifts moves moved result) : Lifts (moves + 1) items result

/-- The moves come to an end when no item is left that may be lifted. -/
theorem Lifting.lifts {rank : Linked α → Nat} {r : Nat} {items : List (Linked α)}
    (hlifting : Lifting rank r items) (hranked : Ranked rank items) :
    ∃ moves ≤ r, ∃ result, Lifts moves items result ∧ Settled result := by
  induction r using Nat.strongRecOn generalizing items with
  | ind r ih =>
    cases hstep : liftOne? items with
    | none => exact ⟨0, Nat.zero_le r, items, .rest items, liftOne?_eq_none.mp hstep⟩
    | some moved =>
      obtain ⟨r', hr', hmoved⟩ := liftOne?_lowers hlifting hranked hstep
      obtain ⟨moves, hmoves, result, hlifts, hend⟩ :=
        ih r' hr' hmoved (hranked.perm (liftOne?_perm hstep))
      exact ⟨moves + 1, by omega, result, .move hstep hlifts, hend⟩

/-- Items of which none needs a later one are left in order. -/
theorem liftAnchors_self {items : List (Linked α)} (h : Settled items) (fuel : Nat) :
    liftAnchors fuel items = items := by
  cases fuel with
  | zero => rfl
  | succ fuel => rw [liftAnchors, liftOne?_eq_none.mpr h]

/-- What comes out of the lifting is where the moves end, if they end within its rounds. -/
theorem Lifts.liftAnchors_eq {moves fuel : Nat} {items result : List (Linked α)}
    (h : Lifts moves items result) (hend : Settled result) (hfuel : moves ≤ fuel) :
    liftAnchors fuel items = result := by
  induction h generalizing fuel with
  | rest items => exact liftAnchors_self hend fuel
  | move hstep _ ih =>
    cases fuel with
    | zero => cases hfuel
    | succ fuel =>
      rw [liftAnchors, hstep]
      exact ih hend (Nat.le_of_succ_le_succ hfuel)

/-- With as many steps as there are items to lift, the lifting comes to its end. -/
theorem liftAnchors_settled {rank : Linked α → Nat} {r fuel : Nat} {items : List (Linked α)}
    (hlifting : Lifting rank r items) (hranked : Ranked rank items) (hfuel : r ≤ fuel) :
    Settled (liftAnchors fuel items) := by
  obtain ⟨moves, hmoves, result, hlifts, hend⟩ := hlifting.lifts hranked
  rw [hlifts.liftAnchors_eq hend (Nat.le_trans hmoves hfuel)]
  exact hend

/-! ## Orders that can be reached -/

/-- A settled order ranks its items. -/
theorem Settled.exists_rank {items : List (Linked α)} (h : Settled items) :
    ∃ rank, Ranked rank items := by
  induction items with
  | nil => exact ⟨fun _ => 0, .nil⟩
  | cons x later ih =>
    obtain ⟨hx, hlater⟩ := List.pairwise_cons.mp h
    obtain ⟨rank, hrank⟩ := ih hlater
    -- what has the links of the first item is of lowest rank; it is not needed by another of its kind
    let alike (y : Linked α) : Prop := y.anchors = x.anchors ∧ y.aliases = x.aliases
    have hapart {y z : Linked α} (hz : z ∈ later) (hneeds : y.Needs z) : ¬ alike y := by
      rintro ⟨-, haliases⟩
      obtain ⟨name, hname, hdefines⟩ := hneeds
      exact hx z hz ⟨name, haliases ▸ hname, hdefines⟩
    have hraise {y z : Linked α} (hz : z ∈ later) (hneeds : y.Needs z) (hlt : rank z < rank y) :
        (if alike z then 0 else rank z + 1) < if alike y then 0 else rank y + 1 := by
      rw [if_neg (hapart hz hneeds)]
      split <;> omega
    refine ⟨fun y => if alike y then 0 else rank y + 1, List.pairwise_cons.mpr ⟨fun y hy => ?_, ?_⟩⟩
    · refine ⟨fun hneeds => absurd hneeds (hx y hy), fun hneeds => ?_⟩
      have hy' : ¬ alike y := by
        rintro ⟨hanchors, haliases⟩
        obtain ⟨name, hname, hdefines⟩ := hneeds
        exact hx y hy ⟨name, haliases ▸ hname, hanchors ▸ hdefines⟩
      simp only [if_neg hy', if_pos (show alike x from ⟨rfl, rfl⟩)]
      omega
    · refine hrank.imp_of_mem fun {y z} hy hz hyz => ?_
      exact ⟨fun hneeds => hraise hz hneeds (hyz.1 hneeds), fun hneeds => hraise hy hneeds (hyz.2 hneeds)⟩

/-- However items are sorted, lifting settles them if they have a settled order. -/
theorem liftAnchors_perm_settled {items sorted : List (Linked α)} (h : Settled items)
    (hperm : sorted.Perm items) : Settled (liftAnchors (sorted.length * sorted.length) sorted) := by
  obtain ⟨rank, hrank⟩ := h.exists_rank
  exact liftAnchors_settled (Lifting.chain [] sorted .nil) (hrank.perm hperm)
    (Nat.le_mul_self sorted.length)

end MemberOrder.Order

/-! ## Sorting and the anchors that aliases are bound to -/

namespace MemberOrder

/-! ## Entries that use each other's anchors -/

/-- The anchors that an entry defines. -/
def MemberInfo.anchors (i : MemberInfo) : List String := Order.anchorsIn i.fullText

/-- The aliases that an entry uses. -/
def MemberInfo.aliases (i : MemberInfo) : List String := Order.aliasesIn i.fullText

/-- An entry uses an alias of an anchor that the other defines. -/
def Member.Needs (m m' : Member) : Prop := ∃ name ∈ m.info.aliases, name ∈ m'.info.anchors

instance (m m' : Member) : Decidable (m.Needs m') :=
  inferInstanceAs (Decidable (∃ name ∈ m.info.aliases, name ∈ m'.info.anchors))

/-- No entry uses an anchor that a later one defines. -/
def NoneAhead (ms : List Member) : Prop := ms.Pairwise fun m m' => ¬ m.Needs m'

instance (ms : List Member) : Decidable (NoneAhead ms) :=
  inferInstanceAs (Decidable (ms.Pairwise fun m m' => ¬ m.Needs m'))

/-- Whether the entry at an index defines a name. -/
def definesAt (ms : List Member) (name : String) (k : Nat) : Bool :=
  (ms[k]?).any (·.info.anchors.contains name)

/-- The entry that a name is bound to at an index: the last one at or before it that defines it. -/
def binder? (ms : List Member) (name : String) : (k : Nat) → Option Nat
  | 0 => if definesAt ms name 0 then some 0 else none
  | k + 1 => if definesAt ms name (k + 1) then some (k + 1) else binder? ms name k

/-- Every alias is bound. -/
def Bound (ms : List Member) : Prop :=
  ∀ x ∈ ms.zipIdx, ∀ name ∈ x.1.info.aliases, (binder? ms name x.2).isSome = true

instance (ms : List Member) : Decidable (Bound ms) :=
  inferInstanceAs (Decidable (∀ x ∈ ms.zipIdx, ∀ name ∈ x.1.info.aliases, _))

/-- Entries in another order, the one at `k` from `place k`, but for what is inside of them. -/
structure Moved (place : Nat → Nat) (ms ms' : List Member) : Prop where
  perm : ((List.range ms'.length).map place).Perm (List.range ms.length)
  info : ∀ k < ms'.length, (ms'[k]?).map Member.info = (ms[place k]?).map Member.info

/-- Every alias is bound to the entry that it was bound to. -/
def KeepsBindings (ms ms' : List Member) : Prop :=
  ∃ place, Moved place ms ms' ∧ ∀ x ∈ ms'.zipIdx, ∀ name ∈ x.1.info.aliases,
    ∃ j, binder? ms' name x.2 = some j ∧ binder? ms name (place x.2) = some (place j)

theorem binder?_eq_some {ms : List Member} {name : String} {k j : Nat} :
    binder? ms name k = some j ↔
      j ≤ k ∧ definesAt ms name j = true ∧ ∀ i, j < i → i ≤ k → definesAt ms name i = false := by
  induction k with
  | zero =>
    rw [binder?]
    split
    · rename_i hdefines
      constructor
      · rintro ⟨⟩
        exact ⟨Nat.le_refl 0, hdefines, fun i hi hle => absurd hle (Nat.not_le_of_lt hi)⟩
      · rintro ⟨hj, -⟩
        rw [Nat.le_zero.mp hj]
    · rename_i hdefines
      refine iff_of_false (by simp) ?_
      rintro ⟨hj, hj', -⟩
      exact hdefines (Nat.le_zero.mp hj ▸ hj')
  | succ k ih =>
    rw [binder?]
    split
    · rename_i hdefines
      constructor
      · rintro ⟨⟩
        exact ⟨Nat.le_refl _, hdefines, fun i hi hle => absurd hle (Nat.not_le_of_lt hi)⟩
      · rintro ⟨hj, -, hlast⟩
        by_cases hlt : j < k + 1
        · exact absurd hdefines (by rw [hlast (k + 1) hlt (Nat.le_refl _)]; decide)
        · rw [Nat.le_antisymm hj (Nat.le_of_not_lt hlt)]
    · rename_i hdefines
      rw [ih]
      constructor
      · rintro ⟨hj, hj', hlast⟩
        refine ⟨Nat.le_succ_of_le hj, hj', fun i hi hle => ?_⟩
        rcases Nat.lt_or_eq_of_le hle with hlt | rfl
        · exact hlast i hi (Nat.le_of_lt_succ hlt)
        · simpa using hdefines
      · rintro ⟨hj, hj', hlast⟩
        refine ⟨?_, hj', fun i hi hle => hlast i hi (Nat.le_succ_of_le hle)⟩
        refine Nat.le_of_lt_succ (Nat.lt_of_le_of_ne hj ?_)
        rintro rfl
        exact hdefines hj'

theorem definesAt_iff {ms : List Member} {name : String} {k : Nat} :
    definesAt ms name k = true ↔ ∃ m, ms[k]? = some m ∧ name ∈ m.info.anchors := by
  simp [definesAt, Option.any_eq_true]

theorem Moved.injective {place : Nat → Nat} {ms ms' : List Member} (h : Moved place ms ms') {j k : Nat}
    (hj : j < ms'.length) (hk : k < ms'.length) (hjk : place j = place k) : j = k := by
  have hnodup : ((List.range ms'.length).map place).Nodup := h.perm.nodup_iff.mpr List.nodup_range
  have hplaces {a b : Nat} (hab : a < b) (hb : b < ms'.length) : place a ≠ place b := by
    have hpair := List.pairwise_iff_getElem.mp (List.pairwise_map.mp hnodup) a b
      (by rw [List.length_range]; omega) (by rw [List.length_range]; omega) hab
    rwa [List.getElem_range, List.getElem_range] at hpair
  rcases Nat.lt_trichotomy j k with hlt | heq | hgt
  · exact absurd hjk (hplaces hlt hk)
  · exact heq
  · exact absurd hjk.symm (hplaces hgt hj)

end MemberOrder

namespace MemberOrder.Order

variable {α : Type}

/-- An entry with its anchors and aliases. -/
def link (view : α → Member) (x : α) : Linked α :=
  { item := x, anchors := (view x).info.anchors, aliases := (view x).info.aliases }

/-- What is lifted is the entries with their links. -/
theorem anchorsFirst_eq (view : α → Member) (items : List α) : anchorsFirst view items =
    (liftAnchors (items.length * items.length) (items.map (link view))).map (·.item) := rfl

theorem settled_link {view : α → Member} {items : List α} :
    Settled (items.map (link view)) ↔ NoneAhead (items.map view) := by
  rw [Settled, NoneAhead, List.pairwise_map, List.pairwise_map]
  rfl

/-- Entries of which none uses an anchor of a later one are left in order. -/
theorem anchorsFirst_self {view : α → Member} {items : List α} (h : NoneAhead (items.map view)) :
    anchorsFirst view items = items := by
  rw [anchorsFirst_eq, liftAnchors_self (settled_link.mpr h), List.map_map]
  exact List.map_id items

/-- Entries that come out in a settled order are such that none uses an anchor of a later one. -/
theorem noneAhead_of_settled {view : α → Member} {items : List α} {result : List (Linked α)}
    (hperm : result.Perm (items.map (link view))) (h : Settled result) :
    NoneAhead ((result.map (·.item)).map view) := by
  rw [NoneAhead, List.map_map, List.pairwise_map]
  refine h.imp_of_mem fun {x y} hx hy hxy => ?_
  -- an item that comes out is one that went in, with the links of its entry
  obtain ⟨x', -, rfl⟩ := List.mem_map.mp (hperm.mem_iff.mp hx)
  obtain ⟨y', -, rfl⟩ := List.mem_map.mp (hperm.mem_iff.mp hy)
  exact hxy

/-- Whatever entries are sorted by, lifting their anchors puts them in an order in which none uses an
anchor of a later one, if they came in such an order. -/
theorem anchorsFirst_noneAhead (view : α → Member) {items sorted : List α}
    (h : NoneAhead (items.map view)) (hperm : sorted.Perm items) :
    NoneAhead ((anchorsFirst view sorted).map view) := by
  have hsettled := liftAnchors_perm_settled (settled_link.mpr h) (hperm.map (link view))
  rw [List.length_map] at hsettled
  exact noneAhead_of_settled (liftAnchors_perm _ _) hsettled

end MemberOrder.Order

namespace MemberOrder.Sorter

open MemberOrder.Order

variable {α β : Type}

/-! ## Where every entry goes -/

/-- A permutation of images is the image of a permutation. -/
theorem exists_perm_map (f : α → β) {items : List α} {images : List β} (h : images.Perm (items.map f)) :
    ∃ items' : List α, items'.Perm items ∧ items'.map f = images := by
  generalize hsource : items.map f = source at h
  induction h generalizing items with
  | nil => exact ⟨items, .refl _, hsource⟩
  | cons y _ ih =>
    obtain ⟨x, rest, rfl, rfl, hrest⟩ := List.map_eq_cons_iff.mp hsource
    obtain ⟨rest', hperm, rfl⟩ := ih hrest
    exact ⟨x :: rest', hperm.cons x, rfl⟩
  | swap y z images =>
    obtain ⟨x, rest, rfl, rfl, hrest⟩ := List.map_eq_cons_iff.mp hsource
    obtain ⟨w, rest', rfl, rfl, rfl⟩ := List.map_eq_cons_iff.mp hrest
    exact ⟨w :: x :: rest', .swap _ _ _, rfl⟩
  | trans _ _ ih₁ ih₂ =>
    obtain ⟨mid, hmid, rfl⟩ := ih₂ hsource
    obtain ⟨items', hperm, hitems⟩ := ih₁ rfl
    exact ⟨items', hperm.trans hmid, hitems⟩

/-- Where the items of a refilled list come from: each item from one place, and a spread from its own. -/
theorem refill_places (view : α → Member) {items arranged : List α}
    (hperm : arranged.Perm (items.filter fun x => !(view x).info.isSpread)) :
    ∃ place : Nat → Nat, ((List.range items.length).map place).Perm (List.range items.length) ∧
      (∀ k < items.length, (refill view items arranged)[k]? = items[place k]?) ∧
      ∀ k x, (refill view items arranged)[k]? = some x → (view x).info.isSpread = true →
        place k = k := by
  -- the items beside their indices are refilled in the same way
  have hfst : items.zipIdx.map Prod.fst = items := List.zipIdx_map_fst 0 items
  have hsnd : items.zipIdx.map Prod.snd = List.range items.length := by
    rw [List.zipIdx_map_snd, List.range_eq_range']
  have hregular : ((items.zipIdx.filter fun x => !(view x.1).info.isSpread).map Prod.fst) =
      items.filter fun x => !(view x).info.isSpread := by
    have hfilter := List.filter_map (f := Prod.fst) (p := fun x => !(view x).info.isSpread)
      (l := items.zipIdx)
    rw [hfst] at hfilter
    exact hfilter.symm
  rw [← hregular] at hperm
  obtain ⟨numbered, hnumbered, rfl⟩ := exists_perm_map Prod.fst hperm
  have hwhole : refill view (items.zipIdx.map Prod.fst) (numbered.map Prod.fst) =
      (refill (view ∘ Prod.fst) items.zipIdx numbered).map Prod.fst :=
    refill_map Prod.fst (fun _ => rfl) _ _
  rw [hfst, eq_comm] at hwhole
  generalize hplaced : refill (view ∘ Prod.fst) items.zipIdx numbered = placed at hwhole
  have hplacedPerm : placed.Perm items.zipIdx := by
    rw [← hplaced]
    refine (refill_perm _ hnumbered.length_eq).trans ?_
    exact (hnumbered.append_left _).trans (List.filter_append_perm _ _)
  have hlength : placed.length = items.length := by rw [hplacedPerm.length_eq, List.length_zipIdx]
  have hsource {k : Nat} {x : α × Nat} (hx : placed[k]? = some x) : items[x.2]? = some x.1 :=
    List.mem_zipIdx_iff_getElem?.mp (hplacedPerm.mem_iff.mp (List.mem_of_getElem? hx))
  have hplace {k : Nat} {x : α × Nat} (hx : placed[k]? = some x) :
      ((placed[k]?).map Prod.snd).getD k = x.2 := by
    rw [hx]
    rfl
  refine ⟨fun k => ((placed[k]?).map Prod.snd).getD k, ?_, fun k hk => ?_, fun k x hx hspread => ?_⟩
  · have hrange : (List.range items.length).map (fun k => ((placed[k]?).map Prod.snd).getD k) =
        placed.map Prod.snd := by
      refine List.ext_getElem (by simp [hlength]) fun k hk hk' => ?_
      have hk'' : k < placed.length := by simpa using hk'
      simp [List.getElem?_eq_getElem hk'']
    rw [hrange, ← hsnd]
    exact hplacedPerm.map Prod.snd
  · have hat := List.getElem?_eq_getElem (hlength ▸ hk : k < placed.length)
    simp only [hplace hat]
    rw [← hwhole, List.getElem?_map, hat, hsource hat]
    rfl
  · rw [← hwhole, List.getElem?_map, Option.map_eq_some_iff] at hx
    obtain ⟨y, hy, rfl⟩ := hx
    have hregular (z : α × Nat) (hz : z ∈ numbered) : (view z.1).info.isSpread = false := by
      simpa using (List.mem_filter.mp (hnumbered.mem_iff.mp hz)).2
    have hpinned := (refill_pins (view ∘ Prod.fst) hnumbered.length_eq hregular hspread).mpr
      (hplaced ▸ hy)
    rw [List.getElem?_zipIdx, Option.map_eq_some_iff] at hpinned
    obtain ⟨z, -, rfl⟩ := hpinned
    simp only [hplace hy, Nat.zero_add]

/-! ## Sorting -/

theorem eachArranged_infos {ms ms' : List Member} (h : EachArranged ms ms') :
    ms'.map Member.info = ms.map Member.info := by
  match h with
  | .nil => rfl
  | .cons hm hrest =>
    rw [List.map_cons, List.map_cons, eachArranged_infos hrest]
    cases hm <;> rfl

/-- Entries that are sorted are those that are no spreads, arranged and dealt into the places around the
spreads; none of them uses an anchor of a later one if none did before. -/
theorem sortMembers_refilled {o : Options} {entity : Option (EntityKind × String)}
    {ms ms' : List Member} (hkeep : o.preserveAnchorsAndAliases = true)
    (h : Sorter.yaml.sortMembers o entity ms = .ok ms') :
    ∃ arranged, arranged.Perm (ms.filter fun m => !m.info.isSpread) ∧
      (NoneAhead (ms.filter fun m => !m.info.isSpread) → NoneAhead arranged) ∧
      ms'.map Member.info = (refill id ms arranged).map Member.info := by
  unfold sortMembers at h
  split at h
  · rename_i hempty
    cases h
    rw [List.isEmpty_iff.mp hempty]
    exact ⟨[], .refl _, id, rfl⟩
  · simp only at h
    generalize hitems : (if o.sortNestedObjects = true then _ else _) = items at h
    have hms : items.map Prod.fst = ms ∧ SortedInside items := by
      rw [← hitems]
      split
      · exact (sortEachInside_spec _ ms).symm
      · refine ⟨by rw [List.map_map]; exact List.map_id ms, ?_⟩
        intro x hx m' hm'
        obtain ⟨m, -, rfl⟩ := List.mem_map.mp hx
        cases hm'
        exact .refl _
    obtain ⟨rfl, hinside⟩ := hms
    obtain ⟨ordered, hordered, h⟩ := arrangeLevel_ok h
    have hperm := arrangeAround_perm hordered
    have heach := each_of_mapM EachArranged.nil .cons (fun x hx => hinside x (hperm.mem_iff.mp hx)) h
    unfold arrangeAround at hordered
    obtain ⟨arranged, harranged, hordered⟩ := bind_ok hordered
    cases hordered
    have hfilter : (items.map Prod.fst).filter (fun m => !m.info.isSpread) =
        (items.filter fun x => !x.1.info.isSpread).map Prod.fst := List.filter_map
    refine ⟨arranged.map Prod.fst, ?_, ?_, ?_⟩
    · rw [hfilter]
      exact (arrange_perm harranged).map Prod.fst
    · rw [hfilter]
      intro hahead
      unfold arrange arrangeYaml at harranged
      simp only [hkeep, if_true] at harranged
      obtain ⟨sorted, hsorted, harranged⟩ := bind_ok harranged
      cases harranged
      exact anchorsFirst_noneAhead Prod.fst hahead (arrangeEntries_perm hsorted)
    · rw [eachArranged_infos heach]
      refine congrArg (List.map Member.info) (refill_map Prod.fst ?_ items arranged).symm
      exact fun _ => rfl

/-- Members that are sorted come from places of which each spread has its own, and those that are no
spreads come in an order in which none uses an anchor of a later one, if they did before. -/
theorem sortMembers_moved {o : Options} {entity : Option (EntityKind × String)}
    {ms ms' : List Member} (hkeep : o.preserveAnchorsAndAliases = true)
    (hahead : NoneAhead (ms.filter fun m => !m.info.isSpread))
    (h : Sorter.yaml.sortMembers o entity ms = .ok ms') :
    (∃ place, Moved place ms ms' ∧ ∀ k m, ms'[k]? = some m → m.info.isSpread = true → place k = k) ∧
      ms'.Pairwise fun m m' => m.info.isSpread = false → m'.info.isSpread = false → ¬ m.Needs m' := by
  obtain ⟨arranged, hperm, hnone, hinfos⟩ := sortMembers_refilled hkeep h
  have hregular : ∀ y ∈ arranged, y.info.isSpread = false := by
    intro y hy
    simpa using (List.mem_filter.mp (hperm.mem_iff.mp hy)).2
  have hlength : ms'.length = ms.length := by
    have hlengths := congrArg List.length hinfos
    rw [List.length_map, List.length_map] at hlengths
    rw [hlengths, (refill_perm id hperm.length_eq).length_eq, List.length_append, hperm.length_eq,
      ← List.length_append]
    exact (List.filter_append_perm (fun m => m.info.isSpread) ms).length_eq
  have hinfo (k : Nat) : (ms'[k]?).map Member.info = ((refill id ms arranged)[k]?).map Member.info := by
    rw [← List.getElem?_map, ← List.getElem?_map, hinfos]
  refine ⟨?_, ?_⟩
  · obtain ⟨place, hplace, hfrom, hpinned⟩ := refill_places id hperm
    refine ⟨place, ⟨by rw [hlength]; exact hplace, fun k hk => ?_⟩, fun k m hm hspread => ?_⟩
    · rw [hinfo k, hfrom k (hlength ▸ hk)]
    · have hk := hinfo k
      rw [hm, Option.map_some, eq_comm, Option.map_eq_some_iff] at hk
      obtain ⟨m', hm', hm''⟩ := hk
      exact hpinned k m' hm' (by rw [id_eq, hm'', hspread])
  · have hfilter := hnone hahead
    rw [NoneAhead, ← refill_filter id hperm.length_eq hregular, List.pairwise_filter] at hfilter
    -- what the entries need depends on their texts alone
    let apart (i i' : MemberInfo) : Prop :=
      i.isSpread = false → i'.isSpread = false → ¬ ∃ name ∈ i.aliases, name ∈ i'.anchors
    have happart : ((refill id ms arranged).map Member.info).Pairwise apart := by
      rw [List.pairwise_map]
      exact hfilter.imp fun hmm' hm hm' => hmm' (by simp [hm]) (by simp [hm'])
    rw [← hinfos, List.pairwise_map] at happart
    exact happart

/-- Of entries in which every alias is bound and none that is no spread uses an anchor of a later such
one, sorting moves each and binds each alias at or after the entry that it was bound to, if both
entries are spreads or neither is; it is bound to that entry if no other defines the name. -/
theorem sortMembers_keeps_binders (o : Options) (entity : Option (EntityKind × String))
    (ms ms' : List Member) (hkeep : o.preserveAnchorsAndAliases = true) (hbound : Bound ms)
    (hahead : NoneAhead (ms.filter fun m => !m.info.isSpread))
    (h : Sorter.yaml.sortMembers o entity ms = .ok ms') :
    ∃ place, Moved place ms ms' ∧ ∀ x ∈ ms'.zipIdx, ∀ name ∈ x.1.info.aliases,
      ∃ y ∈ ms'.zipIdx, binder? ms name (place x.2) = some (place y.2) ∧
        (x.1.info.isSpread = y.1.info.isSpread → y.2 ≤ x.2 ∧
          ((∀ i, definesAt ms name i = true → i = place y.2) → binder? ms' name x.2 = some y.2)) := by
  obtain ⟨⟨place, hmoved, hpinned⟩, hpairs⟩ := sortMembers_moved hkeep hahead h
  -- an entry and the one it comes from have the same text
  have hfrom {k : Nat} {m : Member} (hm : ms'[k]? = some m) :
      ∃ m', ms[place k]? = some m' ∧ m'.info = m.info := by
    have hk := hmoved.info k (List.getElem?_eq_some_iff.mp hm).1
    rw [hm, Option.map_some, eq_comm, Option.map_eq_some_iff] at hk
    exact hk
  refine ⟨place, hmoved, ?_⟩
  rintro ⟨user, k⟩ hx name hname
  rw [List.mem_zipIdx_iff_getElem?] at hx
  obtain ⟨user', huser', huserInfo⟩ := hfrom hx
  obtain ⟨i, hi⟩ := Option.isSome_iff_exists.mp
    (hbound (user', place k) (List.mem_zipIdx_iff_getElem?.mpr huser') name (huserInfo ▸ hname))
  obtain ⟨hle, hdefines, -⟩ := binder?_eq_some.mp hi
  obtain ⟨owner', howner', hanchor⟩ := definesAt_iff.mp hdefines
  -- the binder has come to some place
  have hmem : i ∈ (List.range ms'.length).map place :=
    hmoved.perm.mem_iff.mpr (List.mem_range.mpr (List.getElem?_eq_some_iff.mp howner').1)
  obtain ⟨j, hj, rfl⟩ := List.mem_map.mp hmem
  rw [List.mem_range] at hj
  have howner := List.getElem?_eq_getElem hj
  obtain ⟨owner'', howner'', hownerInfo⟩ := hfrom howner
  rw [howner', Option.some.injEq] at howner''
  subst howner''
  refine ⟨(ms'[j], j), List.mem_zipIdx_iff_getElem?.mpr howner, hi, fun hkind => ?_⟩
  have hanchor' : name ∈ (ms'[j]).info.anchors := hownerInfo ▸ hanchor
  have hjk : j ≤ k := by
    cases hspread : user.info.isSpread with
    | true =>
      rw [hpinned k user hx hspread, hpinned j _ howner (hkind ▸ hspread)] at hle
      exact hle
    | false =>
      refine Nat.le_of_not_lt fun hkj => ?_
      have hk := (List.getElem?_eq_some_iff.mp hx).1
      have hneeds := List.pairwise_iff_getElem.mp hpairs k j hk hj hkj
      rw [(List.getElem?_eq_some_iff.mp hx).2] at hneeds
      exact hneeds hspread (hkind ▸ hspread) ⟨name, hname, hanchor'⟩
  refine ⟨hjk, fun honly => binder?_eq_some.mpr ⟨hjk, definesAt_iff.mpr ⟨_, howner, hanchor'⟩, ?_⟩⟩
  intro l hl hlk
  rw [← Bool.not_eq_true, definesAt_iff]
  rintro ⟨other, hother, hname'⟩
  obtain ⟨other', hother', hotherInfo⟩ := hfrom hother
  have hplaces := honly (place l) (definesAt_iff.mpr ⟨other', hother', hotherInfo ▸ hname'⟩)
  have hsame := hmoved.injective (List.getElem?_eq_some_iff.mp hother).1 hj hplaces
  omega

/-- An entry that uses an anchor whose entry comes after it by name, and a merge key between them. -/
def anchorAfterName : List Member :=
  [.leaf { name := "b", fullText := "b: &x 1" },
    .leaf { name := "<<", fullText := "<<: *x", isSpread := true },
    .leaf { name := "a", fullText := "a: *x" }]

/-- The anchor is lifted to the place ahead of the merge key. -/
theorem sortMembers_keeps_binders_lifted :
    Bound anchorAfterName ∧
    ∃ ms', Sorter.yaml.sortMembers {} none anchorAfterName = .ok ms' ∧
      ms'.map Member.name = ["b", "<<", "a"] ∧
      ∃ place, Moved place anchorAfterName ms' ∧ ∀ x ∈ ms'.zipIdx, ∀ name ∈ x.1.info.aliases,
        ∃ y ∈ ms'.zipIdx, binder? anchorAfterName name (place x.2) = some (place y.2) ∧
          (x.1.info.isSpread = y.1.info.isSpread → y.2 ≤ x.2 ∧
            ((∀ i, definesAt anchorAfterName name i = true → i = place y.2) →
              binder? ms' name x.2 = some y.2)) := by
  have hbound : Bound anchorAfterName := by decide +kernel
  have hnames : ((Sorter.yaml.sortMembers {} none anchorAfterName).toOption.map
      fun ms' => ms'.map Member.name) = some ["b", "<<", "a"] := by decide +kernel
  refine ⟨hbound, ?_⟩
  cases h : Sorter.yaml.sortMembers {} none anchorAfterName with
  | error err =>
    rw [h] at hnames
    cases hnames
  | ok ms' =>
    rw [h] at hnames
    exact ⟨ms', rfl, Option.some.inj hnames, sortMembers_keeps_binders {} none anchorAfterName ms' rfl
      hbound (by decide +kernel) h⟩

/-- A mapping that is merged into the document after its entry. -/
def mergedMapping : List Member :=
  [.group { name := "z", fullText := "z: &z\n  k: 1", hasNestedObject := true, container := .braces }
      [.leaf { name := "k", fullText := "k: 1" }],
    .leaf { name := "<<", fullText := "<<: *z", isSpread := true },
    .leaf { name := "a", fullText := "a: 1" }]

/-- The entry moves behind the merge key, whose alias is then bound to nothing. -/
theorem sortMembers_unbinds_spread :
    Options.preserveAnchorsAndAliases {} = true ∧ Bound mergedMapping ∧
    ∃ ms', Sorter.yaml.sortMembers {} none mergedMapping = .ok ms' ∧
      ms'.map Member.name = ["a", "<<", "z"] ∧ ¬ KeepsBindings mergedMapping ms' := by
  have hsorted : ((Sorter.yaml.sortMembers {} none mergedMapping).toOption.map fun ms' =>
      (ms'.map Member.name, (ms'[1]?).map (·.info.aliases), binder? ms' "z" 1)) =
      some (["a", "<<", "z"], some ["z"], none) := by
    decide +kernel
  refine ⟨rfl, by decide +kernel, ?_⟩
  cases h : Sorter.yaml.sortMembers {} none mergedMapping with
  | error err =>
    rw [h] at hsorted
    cases hsorted
  | ok ms' =>
    rw [h] at hsorted
    simp only [Except.toOption, Option.map_some, Option.some.injEq, Prod.mk.injEq] at hsorted
    obtain ⟨hnames, haliases, hunbound⟩ := hsorted
    refine ⟨ms', rfl, hnames, ?_⟩
    rintro ⟨place, -, hkeeps⟩
    obtain ⟨merge, hmerge, haliases⟩ := Option.map_eq_some_iff.mp haliases
    obtain ⟨j, hj, -⟩ := hkeeps (merge, 1) (List.mem_zipIdx_iff_getElem?.mpr hmerge) "z"
      (by rw [haliases]; exact List.mem_singleton_self "z")
    rw [hunbound] at hj
    cases hj

/-- An entry that uses an anchor which a later one defines again is bound to that one afterwards. -/
example : ((Sorter.yaml.sortMembers {} none [.leaf { name := "a", fullText := "a: &x 1" },
    .leaf { name := "b", fullText := "b: *x" }, .leaf { name := "c", fullText := "c: &x 2" }]).toOption.map
      fun ms' => (ms'.map Member.name, binder? ms' "x" 2)) = some (["a", "c", "b"], some 1) := by
  decide +kernel

end MemberOrder.Sorter
