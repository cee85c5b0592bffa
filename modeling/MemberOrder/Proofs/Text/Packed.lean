/-
  Texts without their white space.

  What is left of a text is put together from what is left of its parts (`pack_append`), white space leaves
  nothing (`pack_eq_nil`), and a word has none of it (`isSpace_of_isWord`).
-/
import MemberOrder.Pattern.Basic
import MemberOrder.Proofs.Text.Offsets

namespace MemberOrder

/-- The characters that are no white space. -/
def pack (cs : List Char) : List Char := cs.filter fun c => !Text.isSpace c

theorem pack_append (cs ds : List Char) : pack (cs ++ ds) = pack cs ++ pack ds := List.filter_append cs ds

theorem pack_eq_nil {cs : List Char} (h : ∀ c ∈ cs, Text.isSpace c = true) : pack cs = [] := by
  rw [pack, List.filter_eq_nil_iff]
  intro c hc
  rw [h c hc]
  decide

namespace Text

theorem pack_slice_eq_nil {t : Text} {i j : Nat}
    (h : ∀ x, i ≤ x → x < j → t.testAt x isSpace = true) : pack (t.slice i j) = [] := by
  refine pack_eq_nil fun c hc => ?_
  obtain ⟨x, h1, h2, hx⟩ := mem_slice.mp hc
  rw [← testAt_of_getElem? hx isSpace]
  exact h x h1 h2

/-- No word character is among the white space outside ASCII. -/
theorem words_apart_from_spaces :
    ∀ r ∈ wordRanges, ∀ q ∈ spaceRanges, r.hi < q.lo ∨ q.hi < r.lo := by
  decide +kernel

theorem isSpace_of_isWord {c : Char} (h : isWord c = true) : isSpace c = false := by
  unfold isWord at h
  unfold isSpace
  dsimp only at h ⊢
  split at h
  · rename_i hsmall
    rw [if_pos hsmall]
    delta Char.isAlphanum Char.isAlpha Char.isUpper Char.isLower Char.isDigit at h
    simp only [Bool.or_eq_true, Bool.and_eq_true, decide_eq_true_eq, beq_iff_eq,
      UInt32.le_iff_toNat_le, ge_iff_le] at h
    change (((65 ≤ c.toNat ∧ c.toNat ≤ 90) ∨ (97 ≤ c.toNat ∧ c.toNat ≤ 122)) ∨
      (48 ≤ c.toNat ∧ c.toNat ≤ 57)) ∨ c = '_' at h
    rcases h with h | rfl
    · simp only [Bool.or_eq_false_iff, Bool.and_eq_false_iff, decide_eq_false_iff_not]
      omega
    · decide
  · rename_i hbig
    rw [if_neg hbig]
    obtain ⟨r, hr, hholds⟩ := List.any_eq_true.mp h
    refine Bool.eq_false_iff.mpr fun hspace => ?_
    obtain ⟨q, hq, hin⟩ := List.any_eq_true.mp hspace
    simp only [CodeRange.holds, Bool.and_eq_true, decide_eq_true_eq] at hholds hin
    rcases words_apart_from_spaces r hr q hq with hlt | hlt <;> omega

theorem isWord_of_isNameStart {c : Char} (h : Pattern.isNameStart c = true) : isWord c = true := by
  have hsmall : c.toNat < 128 := by
    rw [Pattern.isNameStart, Bool.or_eq_true, beq_iff_eq] at h
    rcases h with h | rfl
    · delta Char.isAlpha Char.isUpper Char.isLower at h
      simp only [Bool.or_eq_true, Bool.and_eq_true, decide_eq_true_eq, UInt32.le_iff_toNat_le,
        ge_iff_le] at h
      change (65 ≤ c.toNat ∧ c.toNat ≤ 90) ∨ (97 ≤ c.toNat ∧ c.toNat ≤ 122) at h
      omega
    · decide
  unfold isWord
  dsimp only
  rw [if_pos hsmall]
  rw [Pattern.isNameStart, Bool.or_eq_true] at h
  rw [Char.isAlphanum, Bool.or_eq_true, Bool.or_eq_true]
  exact h.imp_left Or.inl

end Text

end MemberOrder
