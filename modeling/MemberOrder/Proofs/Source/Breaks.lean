/-
  Where a text may be cut without cutting through a line break.

  A line break of two characters has one offset inside it, and every other offset is `Cuttable`.
  Scanning keeps line breaks in the masked text (`masked_break`), so next to code every offset is: a line
  break is white space. A comment starts with a slash and ends with one, before a line break or at the
  end of the text (`cuttable_stop`).
-/
import MemberOrder.Proofs.Source.Claims
import MemberOrder.Proofs.Source.Nesting

namespace MemberOrder

/-- An offset that is not between the two characters of a line break. -/
def Cuttable (t : Text) (i : Nat) : Prop :=
  ¬∃ j, i = j + 1 ∧ t[j]? = some '\r' ∧ t[i]? = some '\n'

variable {t : Text} {i : Nat} {c : Char}

theorem cuttable_of_ne (h : t[i]? ≠ some '\n') : Cuttable t i := by
  rintro ⟨j, -, -, hfeed⟩
  exact h hfeed

theorem cuttable_of_at (h : t[i]? = some c) (hc : c ≠ '\n') : Cuttable t i :=
  cuttable_of_ne (by simpa [h] using hc)

theorem cuttable_of_size_le (h : t.size ≤ i) : Cuttable t i :=
  cuttable_of_ne (by simp [Array.getElem?_eq_none h])

theorem cuttable_after (h : t[i]? = some c) (hc : c ≠ '\r') : Cuttable t (i + 1) := by
  rintro ⟨j, heq, hreturn, -⟩
  obtain rfl : i = j := Nat.succ.inj heq
  rw [h, Option.some.injEq] at hreturn
  exact hc hreturn

namespace Scanned

open Lexeme

variable {p : Profile}

/-! ## Line breaks of the masked text -/

theorem getElem?_blank_break {filler : Char} {cs : List Char} {k : Nat} (h : cs[k]? = some c)
    (hc : c = '\r' ∨ c = '\n') : (blank filler cs)[k]? = some c := by
  rw [blank, List.getElem?_map, h, Option.map_some]
  rcases hc with rfl | rfl <;> rfl

theorem getElem?_maskLiteral_break {cs : List Char} {k : Nat} (h : cs[k]? = some c)
    (hc : c = '\r' ∨ c = '\n') : (maskLiteral cs)[k]? = some c := by
  cases cs with
  | nil => cases h
  | cons quote inside =>
    simp only [maskLiteral]
    cases k with
    | zero => split <;> exact h
    | succ k =>
      rw [List.getElem?_cons_succ] at h
      split
      · rename_i hlast
        rw [beq_iff_eq, List.getLast?_eq_getElem?] at hlast
        have hlen : (blank '_' inside.dropLast).length = inside.length - 1 := by
          rw [length_blank, List.length_dropLast]
        have hk := (List.getElem?_eq_some_iff.mp h).1
        rw [List.cons_append, List.getElem?_cons_succ]
        by_cases hend : k = inside.length - 1
        · rw [List.getElem?_append_right (by omega), hlen, hend, Nat.sub_self]
          rw [hend, hlast] at h
          exact h
        · rw [List.getElem?_append_left (by omega)]
          refine getElem?_blank_break ?_ hc
          rw [List.getElem?_dropLast, if_pos (by omega), h]
      · rw [List.getElem?_cons_succ]
        exact getElem?_blank_break h hc

/-- Line breaks stay in the masked text. -/
theorem masked_break (h : t[i]? = some c) (hc : c = '\r' ∨ c = '\n') :
    (scan p t).masked[i]? = some c := by
  have hi : i < t.size := (Array.getElem?_eq_some_iff.mp h).1
  obtain ⟨l, hl, h1, h2⟩ := (lexemes_tile p t).covers (Nat.zero_le i) hi
  have hslice : (t.slice l.start l.stop)[i - l.start]? = some c := by
    rw [getElem?_slice_of_lexeme h1 h2, h]
  rw [getElem?_masked hl h1 h2]
  unfold Lexeme.masked
  split
  · exact hslice
  · exact getElem?_maskLiteral_break hslice hc
  · exact getElem?_blank_break hslice hc
  · exact getElem?_blank_break hslice hc

/-! ## Cuts next to code -/

/-- Before a character that passes a test that no line feed passes. -/
theorem cuttable_of_testAt {test : Char → Bool} (htest : test '\n' = false)
    (h : (scan p t).masked.testAt i test = true) : Cuttable t i := by
  refine cuttable_of_ne fun hfeed => ?_
  rw [Text.testAt_of_getElem? (masked_break hfeed (Or.inr rfl)), htest] at h
  cases h

/-- After a character that passes a test that no carriage return passes. -/
theorem cuttable_after_testAt {test : Char → Bool} (htest : test '\r' = false)
    (h : (scan p t).masked.testAt (i - 1) test = true) : Cuttable t i := by
  rintro ⟨j, rfl, hreturn, -⟩
  rw [Nat.add_sub_cancel, Text.testAt_of_getElem? (masked_break hreturn (Or.inl rfl)), htest] at h
  cases h

theorem cuttable_of_code (h : (scan p t).masked.testAt i Text.isSpace = false) : Cuttable t i := by
  refine cuttable_of_ne fun hfeed => ?_
  rw [Text.testAt_of_getElem? (masked_break hfeed (Or.inr rfl))] at h
  cases h

theorem cuttable_after_code (h : (scan p t).masked.testAt (i - 1) Text.isSpace = false) :
    Cuttable t i := by
  rintro ⟨j, rfl, hreturn, -⟩
  rw [Nat.add_sub_cancel, Text.testAt_of_getElem? (masked_break hreturn (Or.inl rfl))] at h
  cases h

theorem cuttable_nextCodeToEnd (x : Nat) : Cuttable t ((scan p t).nextCodeToEnd x) := by
  by_cases hlt : (scan p t).nextCodeToEnd x < (scan p t).masked.size
  · exact cuttable_of_code (Text.code_at_nextCode hlt)
  · rw [size_masked] at hlt
    exact cuttable_of_size_le (Nat.le_of_not_lt hlt)

/-- A closing bracket is code. -/
theorem code_of_close {masked : Text} {start close : Nat}
    (h : Brackets.close? Brackets.all masked start = some close) :
    masked.testAt close Text.isSpace = false := by
  obtain ⟨-, -, c, hc, hcloser⟩ := Brackets.close?_some h
  rw [Text.testAt_of_getElem? hc]
  simp only [Brackets.all, List.any_cons, List.any_nil, Bool.or_false, Bool.or_eq_true,
    beq_iff_eq] at hcloser
  rcases hcloser with rfl | rfl | rfl <;> decide

theorem cuttable_after_close {start close : Nat}
    (h : Brackets.close? Brackets.all (scan p t).masked start = some close) : Cuttable t (close + 1) := by
  refine cuttable_after_code (p := p) ?_
  rw [Nat.add_sub_cancel]
  exact code_of_close h

/-! ## Cuts next to comments -/

theorem cuttable_offset {k : Comment} (h : k ∈ (scan p t).comments) : Cuttable t k.offset :=
  cuttable_of_at (slash_of_comment h) (by decide)

theorem cuttable_blockStop {i : Nat} : Cuttable t (blockStop t i) := by
  unfold blockStop
  split
  · rename_i close hclose
    obtain ⟨-, -, hstands, -⟩ := Text.find?_some hclose
    exact cuttable_after (Text.standsAt_two.mp hstands).2 (by decide)
  · exact cuttable_of_size_le (Nat.le_refl _)

/-- A line comment ends before the line break, not inside it. -/
theorem cuttable_lineStop (h : t[i]? = some c) (hc : c ≠ '\n') : Cuttable t (lineStop t i) := by
  have hstop : i ≤ (t.find? ['\n'] i).getD t.size := by
    cases hfind : t.find? ['\n'] i with
    | none => exact Nat.le_of_lt (Array.getElem?_eq_some_iff.mp h).1
    | some j => exact (Text.find?_some hfind).1
  unfold lineStop
  dsimp only
  split
  · rename_i hreturn
    rw [Bool.and_eq_true, Text.hasAt_iff] at hreturn
    exact cuttable_of_at hreturn.2 (by decide)
  · rename_i hnot
    rcases Nat.eq_or_lt_of_le hstop with heq | hlt
    · rw [← heq]
      exact cuttable_of_at h hc
    · rintro ⟨j, heq, hreturn, -⟩
      rw [heq, Nat.add_sub_cancel] at hnot
      refine hnot ?_
      rw [Bool.and_eq_true, Text.hasAt_iff]
      exact ⟨decide_eq_true (by omega), hreturn⟩

theorem cuttable_stop {k : Comment} (h : k ∈ (scan p t).comments) : Cuttable t k.stop := by
  have hslash := slash_of_comment h
  obtain ⟨l, hl, hk, h1, h2⟩ := comment_of_scan h
  obtain ⟨-, depth, heq⟩ := eq_lexemeAt_of_mem hl
  rw [h1] at hslash
  rw [h2, heq]
  rw [heq] at hk
  unfold lexemeAt at hk ⊢
  simp only [hslash] at hk ⊢
  split at hk
  · cases hk
  · rename_i hquote
    rw [if_neg hquote]
    split at hk
    · rename_i hblock
      rw [if_pos hblock]
      exact cuttable_blockStop
    · rename_i hblock
      rw [if_neg hblock]
      split at hk
      · rename_i hline
        rw [if_pos hline]
        exact cuttable_lineStop hslash (by decide)
      · cases hk

end Scanned

namespace Attachment

variable {p : Profile} {cs : List Comment}

theorem cuttable_startOf (h : Cuttable t i) (hcs : ∀ k ∈ cs, k ∈ (Scanned.scan p t).comments) :
    Cuttable t (startOf cs i) := by
  cases cs with
  | nil => exact h
  | cons k rest => exact Scanned.cuttable_offset (hcs k List.mem_cons_self)

theorem cuttable_endOf (h : Cuttable t i) (hcs : ∀ k ∈ cs, k ∈ (Scanned.scan p t).comments) :
    Cuttable t (endOf cs i) := by
  induction cs generalizing i with
  | nil => exact h
  | cons k rest ih =>
    rw [endOf_cons]
    refine ih ?_ fun k hk => hcs k (List.mem_cons_of_mem _ hk)
    rcases Nat.le_total i k.stop with hle | hle
    · rw [Nat.max_eq_right hle]
      exact Scanned.cuttable_stop (hcs k List.mem_cons_self)
    · rwa [Nat.max_eq_left hle]

end Attachment

end MemberOrder
