/-
  Texts without letters are in lower case.

  Of the ASCII characters only the letters have a case; white space and the decimal digits have none in
  any script. Such characters stay as they are when a text is lower cased (`lower_of_neutral`), and no
  other character turns into one, so a text whose lower case form is made of them is that form
  (`eq_of_neutral_lower`).
-/
import MemberOrder.Proofs.Text.Bytes
import MemberOrder.Text.Case
import MemberOrder.Text.Digit

namespace MemberOrder.Text

/-- White space, a decimal digit, or a printable ASCII character before the small letters that is no
capital. -/
def isNeutral (c : Char) : Bool :=
  isSpace c || isDecimal c || (32 ≤ c.toNat && c.toNat < 97 && !(65 ≤ c.toNat && c.toNat ≤ 90))

/-! ## Neutral code points -/

/-- The ranges of neutral characters outside ASCII. -/
def neutralRanges : List CodeRange := spaceRanges ++ decimalRanges

/-- Whether the letters of a range and their lower case forms lie apart from a range. -/
def CaseRange.isApart (r : CaseRange) (q : CodeRange) : Bool :=
  (Nat.blt r.hi q.lo || Nat.blt q.hi r.lo) &&
    (Nat.blt (r.hi + r.shift.toNat) (q.lo + (-r.shift).toNat) ||
      Nat.blt (q.hi + (-r.shift).toNat) (r.lo + r.shift.toNat))

theorem lowerRanges_all_isApart : (lowerRanges.all fun r =>
    Nat.ble (97 + (-r.shift).toNat) (r.lo + r.shift.toNat) && neutralRanges.all r.isApart) = true := by
  decide +kernel

/-- No letter with a lower case form is neutral, and no lower case form is. -/
theorem lowerRanges_apart {r : CaseRange} (hr : r ∈ lowerRanges) : (97 : Int) ≤ r.lo + r.shift ∧
    ∀ q ∈ neutralRanges, (r.hi < q.lo ∨ q.hi < r.lo) ∧
      (r.hi + r.shift < q.lo ∨ (q.hi : Int) < r.lo + r.shift) := by
  have hall := List.all_eq_true.mp lowerRanges_all_isApart r hr
  rw [Bool.and_eq_true, Nat.ble_eq, List.all_eq_true] at hall
  refine ⟨by omega, fun q hq => ?_⟩
  have hapart := hall.2 q hq
  simp only [CaseRange.isApart, Bool.and_eq_true, Bool.or_eq_true, Nat.blt_eq] at hapart
  omega

/-- The code points that special rules lower case, and what they become. -/
theorem sigmas_apart :
    ∀ q ∈ neutralRanges, ∀ n ∈ [0x3A3, 0x130, 0x3C2, 0x3C3, 0x307], n < q.lo ∨ q.hi < n := by
  decide

theorem neutral_ascii {c : Char} (h : isNeutral c = true) (hsmall : c.toNat < 128) :
    c.toNat < 97 ∧ ¬(65 ≤ c.toNat ∧ c.toNat ≤ 90) := by
  simp only [isNeutral, isSpace, isDecimal, decimalValue?, if_pos hsmall, Option.isSome_ite, Bool.or_eq_true,
    Bool.and_eq_true, Bool.not_eq_true', decide_eq_true_eq, Bool.and_eq_false_iff, decide_eq_false_iff_not] at h
  omega

theorem neutral_other {c : Char} (h : isNeutral c = true) (hbig : 128 ≤ c.toNat) :
    ∃ q ∈ neutralRanges, q.lo ≤ c.toNat ∧ c.toNat ≤ q.hi := by
  have hspace : isSpace c = true ∨ isDecimal c = true := by
    simp only [isNeutral, Bool.or_eq_true, Bool.and_eq_true, decide_eq_true_eq] at h
    exact h.resolve_right fun hascii => by omega
  have hheld {rs : List CodeRange} {q : CodeRange} (hq : q ∈ rs) (hholds : q.holds c.toNat = true) :
      q ∈ rs ∧ q.lo ≤ c.toNat ∧ c.toNat ≤ q.hi := by
    simp only [CodeRange.holds, Bool.and_eq_true, decide_eq_true_eq] at hholds
    exact ⟨hq, hholds.1⟩
  rcases hspace with hspace | hdecimal
  · rw [isSpace, if_neg (by omega)] at hspace
    obtain ⟨q, hq, hholds⟩ := List.any_eq_true.mp hspace
    obtain ⟨hq, hin⟩ := hheld hq hholds
    exact ⟨q, List.mem_append_left _ hq, hin⟩
  · simp only [isDecimal, decimalValue?] at hdecimal
    rw [if_neg (by omega), Option.isSome_map, List.find?_isSome] at hdecimal
    obtain ⟨q, hq, hholds⟩ := hdecimal
    obtain ⟨hq, hin⟩ := hheld hq hholds
    exact ⟨q, List.mem_append_right _ hq, hin⟩

/-! ## One character -/

/-- The code points of a lower case form: the character itself, or a range says what. -/
theorem lowerChar_cases {c : Char} (hbig : 128 ≤ c.toNat) : lowerChar c = c ∨
    ∃ r ∈ lowerRanges, r.lo ≤ c.toNat ∧ c.toNat ≤ r.hi ∧
      lowerChar c = Char.ofNat ((c.toNat : Int) + r.shift).toNat := by
  simp only [lowerChar]
  rw [if_neg (by omega)]
  split
  · rename_i r hr
    have hholds := List.find?_some hr
    simp only [CodeRange.holds, Bool.and_eq_true, decide_eq_true_eq] at hholds
    exact .inr ⟨r, List.mem_of_find?_eq_some hr, hholds.1.1, hholds.1.2, rfl⟩
  · exact .inl rfl

theorem lowerChar_ascii {c : Char} (hsmall : c.toNat < 128) :
    lowerChar c = c ∨ 65 ≤ c.toNat ∧ c.toNat ≤ 90 ∧ (lowerChar c).toNat = c.toNat + 32 := by
  simp only [lowerChar, if_pos hsmall]
  delta Char.toLower
  split
  · rename_i hupper
    have hlow : 65 ≤ c.toNat := hupper.1
    have hhigh : c.toNat ≤ 90 := hupper.2
    refine .inr ⟨hlow, hhigh, ?_⟩
    change (c.val + 32).toNat = c.val.toNat + 32
    rw [UInt32.toNat_add]
    change (c.toNat + 32) % 2 ^ 32 = c.toNat + 32
    omega
  · exact .inl rfl

theorem lowerChar_of_neutral {c : Char} (h : isNeutral c = true) : lowerChar c = c := by
  rcases Nat.lt_or_ge c.toNat 128 with hsmall | hbig
  · have := neutral_ascii h hsmall
    exact (lowerChar_ascii hsmall).resolve_right fun hupper => this.2 ⟨hupper.1, hupper.2.1⟩
  · obtain ⟨q, hq, hin⟩ := neutral_other h hbig
    refine (lowerChar_cases hbig).resolve_right fun ⟨r, hr, hlow, hhigh, _⟩ => ?_
    have := ((lowerRanges_apart hr).2 q hq).1
    omega

/-- No other character has a lower case form that is neutral. -/
theorem lowerChar_of_neutral_lower {c : Char} (h : isNeutral (lowerChar c) = true) : lowerChar c = c := by
  rcases Nat.lt_or_ge c.toNat 128 with hsmall | hbig
  · refine (lowerChar_ascii hsmall).resolve_right fun ⟨hlow, hhigh, hvalue⟩ => ?_
    have := neutral_ascii h (by omega)
    omega
  · refine (lowerChar_cases hbig).resolve_right fun ⟨r, hr, hlow, hhigh, hvalue⟩ => ?_
    obtain ⟨hletter, hapart⟩ := lowerRanges_apart hr
    rw [hvalue] at h
    by_cases hvalid : ((c.toNat : Int) + r.shift).toNat.isValidChar
    · have hcode : (Char.ofNat ((c.toNat : Int) + r.shift).toNat).toNat = ((c.toNat : Int) + r.shift).toNat :=
        Utf8.toNat_ofNat hvalid
      rcases Nat.lt_or_ge (Char.ofNat ((c.toNat : Int) + r.shift).toNat).toNat 128 with hascii | hother
      · have := neutral_ascii h hascii
        omega
      · obtain ⟨q, hq, hin⟩ := neutral_other h hother
        have := (hapart q hq).2
        omega
    · rw [Char.ofNat, dif_neg hvalid] at h
      exact absurd h (by decide)

/-! ## Texts -/

theorem lowerAfter_of_neutral {before cs : List Char} (h : ∀ c ∈ cs, isNeutral c = true) :
    lowerAfter before cs = cs := by
  induction cs generalizing before with
  | nil => rfl
  | cons c rest ih =>
    have hc := h c List.mem_cons_self
    have hplain {n : Nat} (hn : n ∈ [0x3A3, 0x130, 0x3C2, 0x3C3, 0x307]) : (c.toNat == n) = false := by
      refine beq_false_of_ne fun heq => ?_
      have hbig : 128 ≤ n := by
        simp only [List.mem_cons, List.not_mem_nil, or_false] at hn
        omega
      obtain ⟨q, hq, hin⟩ := neutral_other hc (heq ▸ hbig)
      have := sigmas_apart q hq n hn
      omega
    rw [lowerAfter, hplain (by decide), hplain (by decide), lowerChar_of_neutral hc,
      ih fun d hd => h d (List.mem_cons_of_mem c hd)]
    rfl

theorem eq_of_neutral_lowerAfter {before cs : List Char} (h : ∀ c ∈ lowerAfter before cs, isNeutral c = true) :
    lowerAfter before cs = cs := by
  induction cs generalizing before with
  | nil => rfl
  | cons c rest ih =>
    rw [lowerAfter] at h ⊢
    rw [ih fun d hd => h d (List.mem_append_right _ hd)]
    have hhead := fun d hd => h d (List.mem_append_left _ hd)
    split at hhead
    · exact absurd (hhead _ (List.mem_singleton_self _)) (by split <;> decide)
    split at hhead
    · exact absurd (hhead 'i' List.mem_cons_self) (by decide)
    · rename_i hsigma hdotted
      rw [if_neg hsigma, if_neg hdotted, lowerChar_of_neutral_lower (hhead _ (List.mem_singleton_self _))]
      rfl

/-- A text of neutral characters is in lower case. -/
theorem lower_of_neutral {s : String} (h : ∀ c ∈ s.toList, isNeutral c = true) : lower s = s := by
  rw [lower, lowerAfter_of_neutral h, String.ofList_toList]

/-- A text with a lower case form of neutral characters is that form. -/
theorem eq_of_neutral_lower {s : String} (h : ∀ c ∈ (lower s).toList, isNeutral c = true) : lower s = s := by
  rw [lower, String.toList_ofList] at h
  rw [lower, eq_of_neutral_lowerAfter h, String.ofList_toList]

end MemberOrder.Text
