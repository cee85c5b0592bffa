/-
  Separators of dealt members.

  Whatever separator a place gets, it is nothing, a comma or a semicolon (`separates_slotSeparator`).
  A separator is searched for after its member, comments left aside. Of a member whose separator
  stands in its unit one is found (`sited_stands`), and where the first one outside of comments is the
  member's own, that one is found (`sited_placed`).
-/
import MemberOrder.Layout.Slots
import MemberOrder.Proofs.Placement.Basic

namespace MemberOrder.Layout

/-- What may stand as a separator: nothing, a comma or a semicolon. -/
def Separates (s : String) : Prop := s = "" ∨ s = "," ∨ s = ";"

instance (s : String) : Decidable (Separates s) := inferInstanceAs (Decidable (_ ∨ _))

theorem separates_empty : Separates "" := Or.inl rfl

/-! ## The separator of a place -/

theorem mostFrequent_mem {seen : List String} (h : seen ≠ []) : mostFrequent seen ∈ seen := by
  cases seen with
  | nil => exact absurd rfl h
  | cons first rest =>
    -- whichever is better of two items is one of them
    have hfold : ∀ (all xs : List String) (best : String), xs.foldl (fun best s =>
        if occurrences best all < occurrences s all then s else best) best ∈ best :: xs := by
      intro all xs
      induction xs with
      | nil => exact fun best => List.mem_cons_self
      | cons x xs ih =>
        intro best
        rw [List.foldl_cons]
        rcases List.mem_cons.mp (ih _) with heq | hmem
        · rw [heq]
          split <;> simp
        · exact List.mem_cons_of_mem _ (List.mem_cons_of_mem _ hmem)
    exact hfold (first :: rest) rest first

section Choosing

variable {P : String → Prop}

theorem commonSeparator_of (hempty : P "") {separators : List String} {default : String}
    (h : ∀ s ∈ separators, P s) (hdefault : P default) : P (commonSeparator separators default) := by
  unfold commonSeparator
  split
  · exact hdefault
  · by_cases hnil : separators.dropLast.filter (!·.isEmpty) = []
    · rw [hnil]
      exact hempty
    · have hmem := mostFrequent_mem hnil
      exact h _ (List.dropLast_subset _ (List.mem_filter.mp hmem).1)

theorem finalSeparator_of (hempty : P "") {o : Options} {separator comma : String}
    (h : P separator) (hcomma : P comma) : P (finalSeparator o separator comma) := by
  unfold finalSeparator
  split
  · split
    · exact hcomma
    · exact h
  · split
    · exact hempty
    · exact h
  · exact h

/-- The separator of the member dealt into a place is none, the usual one, its own, or that of another
member. -/
theorem slotSeparator_of (hempty : P "") {s : Setting} {own : String} {separators : List String}
    (slot : Nat) (hrules : P (s.rules.separator s.kind)) (hown : P own) (h : ∀ x ∈ separators, P x) :
    P (slotSeparator s own slot separators) := by
  have hstays : P (separators.getD slot "") := by
    rw [List.getD_eq_getElem?_getD]
    cases hget : separators[slot]? with
    | none => exact hempty
    | some x => exact h x (List.mem_of_getElem? hget)
  have hcommon := commonSeparator_of hempty h hrules
  have hchosen : ∀ isLast : Bool, P (if s.rules.separatorsStay then separators.getD slot ""
      else if isLast then if separators.getLast?.getD "" == "" then "" else own
      else if own.isEmpty then commonSeparator separators (s.rules.separator s.kind) else own) := by
    intro isLast
    split
    · exact hstays
    · split
      · split
        · exact hempty
        · exact hown
      · split
        · exact hcommon
        · exact hown
  unfold slotSeparator
  simp only
  split
  · exact finalSeparator_of hempty (hchosen _) hrules
  · exact hchosen _

end Choosing

/-- The separator of the member dealt into a place is a separator. -/
theorem separates_slotSeparator {s : Setting} {own : String} {separators : List String} (slot : Nat)
    (hrules : Separates (s.rules.separator s.kind)) (hown : Separates own)
    (h : ∀ x ∈ separators, Separates x) : Separates (slotSeparator s own slot separators) :=
  slotSeparator_of separates_empty slot hrules hown h

theorem separates_rules (fileType : FileType) (kind : EntityKind) :
    Separates ((Rules.ofFileType fileType).separator kind) := by
  cases fileType <;> cases kind <;> decide

/-! ## Finding a separator -/

/-- The first of the places where a character stands outside of the given ranges. -/
theorem separatorIndex?_first {c : Char} {covered : List (Nat × Nat)} {after : List Char}
    {base k : Nat} (hk : after[k]? = some c)
    (hfree : covered.any (fun (low, high) => low ≤ base + k && base + k < high) = false) :
    ∃ j ≤ k, separatorIndex? [c] covered base after = some (base + j) ∧ after[j]? = some c ∧
      covered.any (fun (low, high) => low ≤ base + j && base + j < high) = false := by
  induction after generalizing base k with
  | nil => simp at hk
  | cons d rest ih =>
    by_cases hhere : covered.any (fun (low, high) => low ≤ base && base < high) = false ∧ c = d
    · refine ⟨0, Nat.zero_le k, ?_, ?_, hhere.1⟩
      · simp [separatorIndex?, hhere.1, hhere.2, List.isPrefixOf]
      · simp [hhere.2]
    · cases k with
      | zero =>
        simp only [List.getElem?_cons_zero, Option.some.injEq] at hk
        exact absurd ⟨hfree, hk.symm⟩ hhere
      | succ k =>
        rw [List.getElem?_cons_succ] at hk
        have hfree' : covered.any (fun (low, high) => low ≤ base + 1 + k && base + 1 + k < high) =
            false := by
          rw [Nat.add_right_comm]
          exact hfree
        obtain ⟨j, hj, hfound, hchar, hout⟩ := ih hk hfree'
        refine ⟨j + 1, by omega, ?_, hchar, ?_⟩
        · rw [separatorIndex?, if_neg, hfound, Nat.add_right_comm]
          · rfl
          · simp only [List.isPrefixOf, Bool.and_true, Bool.and_eq_true, Bool.not_eq_true',
              beq_iff_eq]
            exact hhere
        · rw [Nat.add_right_comm] at hout
          exact hout

/-- Whether a trailing comment covers an offset. -/
def InTrailing (i : MemberInfo) (x : Nat) : Prop :=
  ∃ k ∈ i.trailingComments, k.offset ≤ x ∧ x < k.stop

/-- What the search finds when the separator of a member stands in its unit: a place with the same
character, at or before the member's own, that no trailing comment covers. -/
theorem ownSeparatorIndex?_found {t : Text} {i : MemberInfo} {span unit : Span} {c : Char}
    {place : Nat} (hplaced : Placed t i span unit) (h : SeparatorAt t i c place) :
    ∃ found, span.stop ≤ found ∧ found ≤ place ∧ t[found]? = some c ∧ ¬InTrailing i found ∧
      ownSeparatorIndex? i (t.slice span.stop unit.stop) = some (found - span.stop) := by
  obtain ⟨-, hsep, hchar, ⟨span', unit', hspan, hunit, hle, hlt⟩, hout⟩ := h
  obtain rfl : span = span' := Option.some.inj (hplaced.span_eq.symm.trans hspan)
  obtain rfl : unit = unit' := Option.some.inj (hplaced.unit_eq.symm.trans hunit)
  let covered := i.trailingComments.filterMap fun k =>
    if span.stop ≤ k.stop then some (k.offset - span.stop, k.stop - span.stop) else none
  -- an offset after the member is covered when its distance from the member is
  have hcovered : ∀ x, covered.any (fun (low, high) => low ≤ 0 + x && 0 + x < high) = false ↔
      ¬InTrailing i (span.stop + x) := by
    intro x
    simp only [covered, List.any_eq_false, List.mem_filterMap, Nat.zero_add, Bool.and_eq_true,
      decide_eq_true_eq]
    constructor
    · rintro hnone ⟨k, hk, h1, h2⟩
      refine hnone (k.offset - span.stop, k.stop - span.stop) ⟨k, hk, if_pos (by omega)⟩ ?_
      dsimp only
      omega
    · rintro hnot r ⟨k, hk, hr⟩ hin
      split at hr
      · cases hr
        dsimp only at hin
        exact hnot ⟨k, hk, by omega, by omega⟩
      · cases hr
  have hslice : ∀ x, span.stop + x < unit.stop → (t.slice span.stop unit.stop)[x]? =
      t[span.stop + x]? := by
    intro x hx
    rw [Text.getElem?_slice, if_pos hx]
  obtain ⟨j, hj, hfound, hat, hfree⟩ := separatorIndex?_first (c := c) (k := place - span.stop)
    (by rw [hslice _ (by omega), Nat.add_sub_cancel' hle, hchar])
    ((hcovered _).mpr (by
      rw [Nat.add_sub_cancel' hle]
      rintro ⟨k, hk, hin⟩
      exact hout k hk hin))
  refine ⟨span.stop + j, by omega, by omega, ?_, (hcovered j).mp hfree, ?_⟩
  · rw [← hslice j (by omega), hat]
  · rw [ownSeparatorIndex?, hsep, hspan, String.toList_singleton, Nat.add_sub_cancel_left,
      ← Nat.zero_add j]
    exact hfound

/-! ## Sites -/

/-- The place of a member's own separator: right after a member that has none, else where it stands,
no trailing comment around it and no other in front of it. -/
def OwnSite (t : Text) (i : MemberInfo) (place : Nat) : Prop :=
  i.separator = "" ∧ (∃ span, i.span = some span ∧ place = span.stop) ∨
    ∃ c, SeparatorAt t i c place ∧ ∀ span, i.span = some span → ∀ x, span.stop ≤ x → x < place →
      t[x]? = some c → InTrailing i x

/-- A place after a member where its separator is found, or right after a member that has none. -/
structure Found (t : Text) (i : MemberInfo) (span unit : Span) (place : Nat) : Prop where
  after : span.stop ≤ place
  inside : place + i.separator.length ≤ unit.stop
  text : t.slice place (place + i.separator.length) = i.separator.toList
  search : i.separator = "" ∧ place = span.stop ∨ i.separator ≠ "" ∧
    ownSeparatorIndex? i (t.slice span.stop unit.stop) = some (place - span.stop)

/-- Members that satisfy `P` have separators, and these are found at their sites. -/
structure Sited (t : Text) (P : MemberInfo → Prop) (site : MemberInfo → Nat → Prop) : Prop where
  separates : ∀ {i : MemberInfo}, P i → Separates i.separator
  found : ∀ {i : MemberInfo} {span unit : Span}, P i → Placed t i span unit →
    ∃ place, site i place ∧ Found t i span unit place

theorem separates_of_at {t : Text} {i : MemberInfo} {c : Char} {place : Nat}
    (h : SeparatorAt t i c place) : Separates i.separator := by
  obtain ⟨hc, hsep, -⟩ := h
  rw [hsep]
  rcases hc with rfl | rfl
  · exact Or.inr (Or.inl rfl)
  · exact Or.inr (Or.inr rfl)

theorem found_of_none {t : Text} {i : MemberInfo} {span unit : Span} (hplaced : Placed t i span unit)
    (h : i.separator = "") : Found t i span unit span.stop := by
  refine ⟨Nat.le_refl _, ?_, ?_, Or.inl ⟨h, rfl⟩⟩
  · rw [h]
    exact hplaced.follows
  · rw [h]
    exact Text.slice_self t (Nat.le_refl _)

theorem found_of_at {t : Text} {i : MemberInfo} {span unit : Span} {c : Char} {place : Nat}
    (hplaced : Placed t i span unit) (h : SeparatorAt t i c place) :
    ∃ found, found ≤ place ∧ t[found]? = some c ∧ ¬InTrailing i found ∧ Found t i span unit found := by
  obtain ⟨found, h1, h2, h3, h4, h5⟩ := ownSeparatorIndex?_found hplaced h
  obtain ⟨-, hsep, -, ⟨span', unit', -, hunit, -, hlt⟩, -⟩ := h
  obtain rfl : unit = unit' := Option.some.inj (hplaced.unit_eq.symm.trans hunit)
  refine ⟨found, h2, h3, h4, h1, ?_, ?_, Or.inr ⟨?_, h5⟩⟩
  · rw [hsep, String.length_singleton]
    exact Nat.lt_of_le_of_lt h2 hlt
  · rw [hsep, String.length_singleton, String.toList_singleton]
    exact Text.slice_one h3
  · rw [hsep]
    exact String.singleton_ne_empty

/-- The place of a separator that is not there: right after the member. -/
def BareSite (i : MemberInfo) (place : Nat) : Prop :=
  i.separator = "" → ∃ span, i.span = some span ∧ place = span.stop

/-- A separator that stands in its unit is found in it. -/
theorem sited_stands (t : Text) : Sited t (SeparatorStands t) BareSite where
  separates h := by
    rcases h with h | ⟨c, place, h⟩
    · exact Or.inl h
    · exact separates_of_at h
  found {i span unit} h hplaced := by
    rcases h with h | ⟨c, place, h⟩
    · exact ⟨span.stop, fun _ => ⟨span, hplaced.span_eq, rfl⟩, found_of_none hplaced h⟩
    · obtain ⟨found, -, -, -, hfound⟩ := found_of_at hplaced h
      refine ⟨found, fun hnone => ?_, hfound⟩
      rcases hfound.search with ⟨-, heq⟩ | ⟨hsome, -⟩
      · exact ⟨span, hplaced.span_eq, heq⟩
      · exact absurd hnone hsome

/-- A separator with no other in front of it, comments left aside, is found where it stands. -/
theorem sited_placed (t : Text) : Sited t (SeparatorPlaced t) (OwnSite t) where
  separates h := by
    rcases h with h | ⟨c, place, h, -⟩
    · exact Or.inl h
    · exact separates_of_at h
  found {i span unit} h hplaced := by
    rcases h with h | ⟨c, place, h, hbetween⟩
    · exact ⟨span.stop, Or.inl ⟨h, span, hplaced.span_eq, rfl⟩, found_of_none hplaced h⟩
    · have hfirst : ∀ span, i.span = some span → ∀ x, span.stop ≤ x → x < place → t[x]? = some c →
          InTrailing i x := by
        intro span hspan x h1 h2 hx
        refine (hbetween span hspan x h1 h2).resolve_left fun hspace => ?_
        rw [Text.testAt_of_getElem? hx] at hspace
        rcases h.1 with rfl | rfl <;> cases hspace
      obtain ⟨found, hle, hchar, hout, hfound⟩ := found_of_at hplaced h
      -- an earlier one would be in a comment
      have hsame : found = place := by
        refine Nat.le_antisymm hle (Nat.le_of_not_lt fun hlt => hout ?_)
        exact hfirst span hplaced.span_eq found hfound.after hlt hchar
      rw [hsame] at hfound
      exact ⟨place, Or.inr ⟨c, h, hfirst⟩, hfound⟩

end MemberOrder.Layout
