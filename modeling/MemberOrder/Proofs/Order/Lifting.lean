/-
  Lifting anchors comes to its end within its bound.

  The lifting starts over after each move, and an entry that has been lifted may have to wait for another
  one in turn. Where no entry leads back to itself by the anchors that entries use of others (`Acyclic`),
  entries are ranked by how many others they lead to (`Acyclic.exists_rank`), and every move takes one
  entry out of those that may still be lifted. All but the first may be, so `n` entries take less than `n`
  moves (`Ranked.lifts`), and the loop has rounds left to find that nothing is to be done
  (`anchorsFirst_converges`). That each name is defined by one entry alone is not needed for this.
-/
import Mathlib.Data.Finset.Card
import MemberOrder.Proofs.Order.Bindings

namespace MemberOrder.Order

/-! ## Entries without cycles -/

section Ranks

variable {β : Type} {needs : β → β → Prop} {xs : List β}

/-- What stands at an index needs what stands at another one. -/
def NeedsAt (needs : β → β → Prop) (xs : List β) (i j : Nat) : Prop :=
  i ≠ j ∧ ∃ x y, xs[i]? = some x ∧ xs[j]? = some y ∧ needs x y

/-- Nothing in a list leads back to itself by what it needs of the others. -/
def Acyclic (needs : β → β → Prop) (xs : List β) : Prop :=
  ∀ i, ¬ Relation.TransGen (NeedsAt needs xs) i i

/-- Where nothing needs what stands before it, nothing leads back to itself. -/
theorem acyclic_of_pairwise (h : xs.Pairwise fun x y => ¬ needs y x) : Acyclic needs xs := by
  have hahead : ∀ i j, NeedsAt needs xs i j → i < j := by
    rintro i j ⟨hne, x, y, hx, hy, hneeds⟩
    obtain ⟨hi, rfl⟩ := List.getElem?_eq_some_iff.mp hx
    obtain ⟨hj, rfl⟩ := List.getElem?_eq_some_iff.mp hy
    refine Nat.lt_of_le_of_ne (Nat.le_of_not_lt fun hlt => ?_) hne
    exact List.pairwise_iff_getElem.mp h j i hj hi hlt hneeds
  intro i hi
  have hlt : ∀ j, Relation.TransGen (NeedsAt needs xs) i j → i < j := by
    intro j hj
    induction hj with
    | single hij => exact hahead i _ hij
    | tail _ hjk ih => exact Nat.lt_trans ih (hahead _ _ hjk)
  exact Nat.lt_irrefl i (hlt i hi)

/-- A relation without cycles ranks the things of a list: what one leads to it outranks. -/
theorem exists_rank_of_acyclic {r : β → β → Prop} (h : ∀ x, ¬ Relation.TransGen r x x) (xs : List β) :
    ∃ rank : β → Nat, ∀ x, ∀ y ∈ xs, r x y → rank y < rank x := by
  classical
  -- the rank is the number of things that one leads to
  refine ⟨fun x => (xs.toFinset.filter (Relation.TransGen r x)).card, fun x y hy hxy => ?_⟩
  refine Finset.card_lt_card ⟨fun z hz => ?_, fun hall => ?_⟩
  · rw [Finset.mem_filter] at hz ⊢
    exact ⟨hz.1, .head hxy hz.2⟩
  · have hmem : y ∈ xs.toFinset.filter (Relation.TransGen r x) :=
      Finset.mem_filter.mpr ⟨List.mem_toFinset.mpr hy, .single hxy⟩
    exact h y (Finset.mem_filter.mp (hall hmem)).2

/-- In a list without cycles, of each two things one that needs the other is of higher rank. -/
theorem Acyclic.exists_rank (h : Acyclic needs xs) : ∃ rank : β → Nat,
    xs.Pairwise fun x y => (needs x y → rank y < rank x) ∧ (needs y x → rank x < rank y) := by
  classical
  let leads (x y : β) : Prop := x ∈ xs ∧ y ∈ xs ∧ x ≠ y ∧ needs x y
  have hleads : ∀ x, ¬ Relation.TransGen leads x x := by
    intro x hx
    refine h (xs.idxOf x) (hx.lift xs.idxOf ?_)
    rintro y z ⟨hy, hz, hne, hneeds⟩
    exact ⟨fun heq => hne ((List.idxOf_inj hy).mp heq), y, z, List.getElem?_idxOf hy,
      List.getElem?_idxOf hz, hneeds⟩
  obtain ⟨rank, hrank⟩ := exists_rank_of_acyclic hleads xs
  have hbelow : ∀ (i j : Nat) (hi : i < xs.length) (hj : j < xs.length), i ≠ j →
      needs xs[i] xs[j] → rank xs[j] < rank xs[i] := by
    intro i j hi hj hne hneeds
    have hij : NeedsAt needs xs i j :=
      ⟨hne, xs[i], xs[j], List.getElem?_eq_getElem hi, List.getElem?_eq_getElem hj, hneeds⟩
    refine hrank _ _ (List.getElem_mem hj) ⟨List.getElem_mem hi, List.getElem_mem hj, fun heq => ?_, hneeds⟩
    -- equal things that need each other are a cycle
    have hji : NeedsAt needs xs j i :=
      ⟨hne.symm, xs[j], xs[i], List.getElem?_eq_getElem hj, List.getElem?_eq_getElem hi, by
        rw [heq] at hneeds ⊢
        exact hneeds⟩
    exact h i (.tail (.single hij) hji)
  refine ⟨rank, List.pairwise_iff_getElem.mpr fun i j hi hj hij => ?_⟩
  exact ⟨hbelow i j hi hj (Nat.ne_of_lt hij), hbelow j i hj hi (Nat.ne_of_gt hij)⟩

end Ranks

variable {α : Type}

/-! ## Moves -/

/-- All items but the first may be lifted, each once. -/
theorem Ranked.lifts {rank : Linked α → Nat} {items : List (Linked α)} (h : Ranked rank items)
    (hne : items ≠ []) :
    ∃ moves < items.length, ∃ result, Lifts moves items result ∧ Settled result := by
  obtain ⟨x, later, rfl⟩ := List.exists_cons_of_ne_nil hne
  obtain ⟨moves, hmoves, hresult⟩ := (Lifting.chain [x] later (List.pairwise_singleton _ x)).lifts h
  exact ⟨moves, Nat.lt_succ_of_le hmoves, hresult⟩

/-- The entries that need each other do so by their links. -/
theorem acyclic_link {view : α → Member} {items : List α}
    (h : Acyclic Member.Needs (items.map view)) : Acyclic Linked.Needs (items.map (link view)) := by
  intro i hi
  refine h i (hi.lift id fun j k hjk => ?_)
  obtain ⟨hne, x, y, hx, hy, hneeds⟩ := hjk
  rw [List.getElem?_map, Option.map_eq_some_iff] at hx hy
  obtain ⟨x, hx, rfl⟩ := hx
  obtain ⟨y, hy, rfl⟩ := hy
  exact ⟨hne, view x, view y, by simp [hx], by simp [hy], hneeds⟩

/-- Of `n` entries without a cycle, at most `n (n - 1) / 2` are moved before there is nothing to be
moved, which is noticed within `n n` rounds. What comes out is a permutation in which no entry uses an
anchor that a later one defines, and entries of which none did are left in order. -/
theorem anchorsFirst_converges (view : α → Member) (items : List α) (hne : items ≠ [])
    (h : Acyclic Member.Needs (items.map view)) :
    (∃ moves result, Lifts moves (items.map (link view)) result ∧ liftOne? result = none ∧
        moves ≤ items.length * (items.length - 1) / 2 ∧ moves + 1 ≤ items.length * items.length ∧
        anchorsFirst view items = result.map (·.item)) ∧
      (anchorsFirst view items).Perm items ∧ NoneAhead ((anchorsFirst view items).map view) ∧
      (NoneAhead (items.map view) → anchorsFirst view items = items) := by
  obtain ⟨rank, hranked⟩ := (acyclic_link h).exists_rank
  obtain ⟨moves, hmoves, result, hlifts, hend⟩ :=
    Ranked.lifts hranked (List.map_eq_nil_iff.not.mpr hne)
  rw [List.length_map] at hmoves
  have hrounds : items.length ≤ items.length * items.length := Nat.le_mul_self items.length
  have heq : liftAnchors (items.length * items.length) (items.map (link view)) = result :=
    hlifts.liftAnchors_eq hend (by omega)
  have hresult : anchorsFirst view items = result.map (·.item) := by rw [anchorsFirst_eq, heq]
  refine ⟨⟨moves, result, hlifts, liftOne?_eq_none.mpr hend, ?_, by omega, hresult⟩,
    anchorsFirst_perm view items, ?_, anchorsFirst_self⟩
  · -- one move for each entry but the first is no more than one for each pair
    rw [Nat.le_div_iff_mul_le Nat.two_pos]
    rcases Nat.lt_or_ge items.length 2 with hone | htwo
    · rw [show moves = 0 by omega, Nat.zero_mul]
      exact Nat.zero_le _
    · calc moves * 2 ≤ (items.length - 1) * items.length := Nat.mul_le_mul (by omega) htwo
        _ = items.length * (items.length - 1) := Nat.mul_comm _ _
  · rw [hresult]
    exact noneAhead_of_settled (heq ▸ liftAnchors_perm _ _) hend

/-- Entries of which each uses an anchor of the next one. -/
def usesAhead : List Member :=
  [.leaf { name := "a", fullText := "a: *y" }, .leaf { name := "b", fullText := "b: &y [*x]" },
    .leaf { name := "c", fullText := "c: &x 1" }]

/-- The entry that has been lifted first has to wait for the last one in turn. -/
theorem anchorsFirst_converges_backwards :
    usesAhead ≠ [] ∧ Acyclic Member.Needs (usesAhead.map id) ∧
    (anchorsFirst id usesAhead).map Member.name = ["c", "b", "a"] ∧
    (∃ moves result, Lifts moves (usesAhead.map (link id)) result ∧ liftOne? result = none ∧
      moves ≤ 3 ∧ moves + 1 ≤ 9 ∧ anchorsFirst id usesAhead = result.map (·.item)) ∧
    NoneAhead ((anchorsFirst id usesAhead).map id) := by
  have hacyclic : Acyclic Member.Needs (usesAhead.map id) := acyclic_of_pairwise (by decide)
  obtain ⟨hmoves, -, hahead, -⟩ := anchorsFirst_converges id usesAhead (by decide) hacyclic
  exact ⟨by decide, hacyclic, by decide, hmoves, hahead⟩

end MemberOrder.Order
