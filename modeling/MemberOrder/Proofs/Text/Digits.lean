/-
  Runs of decimal digits read as integers.

  A decimal digit of any script is neither white space, nor a sign, nor an underscore, so reading an
  integer has nothing to take off a run of decimal digits: the run is an integer
  (`readInteger?_decimals`). Without a decimal digit nothing is (`readInteger?_of_no_decimal`). A run
  that is an integer is read exactly if it is not too long (`readInteger_decimals`). What is written of an
  integer is read as that integer (`readInteger?_toString`), if it is not too long (`readInteger_toString`).
-/
import MemberOrder.Proofs.Text.Offsets
import MemberOrder.Text.Number

namespace MemberOrder.Text

/-! ## Decimal digits -/

/-- No range of digits meets a range of white space. -/
theorem digits_apart_from_spaces :
    ∀ r ∈ decimalRanges, ∀ q ∈ spaceRanges, r.hi < q.lo ∨ q.hi < r.lo := by
  decide

theorem isSpace_of_isDecimal {c : Char} (h : isDecimal c = true) : isSpace c = false := by
  simp only [isDecimal, decimalValue?] at h
  unfold isSpace
  split at h
  · rename_i hsmall
    simp only [Option.isSome_ite, Bool.and_eq_true, decide_eq_true_eq] at h
    rw [if_pos hsmall]
    simp
    omega
  · rename_i hbig
    rw [if_neg hbig]
    rw [Option.isSome_map, List.find?_isSome] at h
    obtain ⟨r, hr, hholds⟩ := h
    refine Bool.eq_false_iff.mpr fun hspace => ?_
    obtain ⟨q, hq, hin⟩ := List.any_eq_true.mp hspace
    simp only [CodeRange.holds, Bool.and_eq_true, decide_eq_true_eq] at hholds hin
    rcases digits_apart_from_spaces r hr q hq with hlt | hlt <;> omega

theorem ne_of_isDecimal {c d : Char} (h : isDecimal c = true) (hd : isDecimal d = false) : c ≠ d := by
  rintro rfl
  rw [h] at hd
  cases hd

/-! ## Trimming and splitting -/

theorem trim_of_no_space {cs : List Char} (h : ∀ c ∈ cs, isSpace c = false) : trim cs = cs := by
  have hkeep {xs : List Char} (hxs : ∀ c ∈ xs, isSpace c = false) : xs.dropWhile isSpace = xs := by
    cases xs with
    | nil => rfl
    | cons x rest => rw [List.dropWhile_cons, hxs x List.mem_cons_self, if_neg (by decide)]
  rw [trim, trimLeft, trimRight, hkeep h, hkeep fun c hc => h c (List.mem_reverse.mp hc), List.reverse_reverse]

theorem trim_subset (cs : List Char) : trim cs ⊆ cs := by
  intro c hc
  have hc := (List.dropWhile_sublist _).subset (List.mem_reverse.mp hc)
  exact (List.dropWhile_sublist _).subset (List.mem_reverse.mp hc)

theorem takeSign_subset (cs : List Char) : (takeSign cs).2 ⊆ cs := by
  unfold takeSign
  split
  · exact List.subset_cons_self _ _
  · exact List.subset_cons_self _ _
  · exact List.Subset.refl _

theorem splitAt_of_none {isSeparator : Char → Bool} {cs : List Char}
    (h : ∀ c ∈ cs, isSeparator c = false) : splitAt isSeparator cs = [cs] := by
  induction cs with
  | nil => rfl
  | cons c rest ih =>
    rw [splitAt, ih fun d hd => h d (List.mem_cons_of_mem c hd), h c List.mem_cons_self]
    rfl

theorem flatten_splitAt_subset (isSeparator : Char → Bool) (cs : List Char) :
    (splitAt isSeparator cs).flatten ⊆ cs := by
  induction cs with
  | nil => exact List.nil_subset _
  | cons c rest ih =>
    obtain ⟨piece, more, hpieces⟩ := List.exists_cons_of_ne_nil (splitAt_ne_nil isSeparator rest)
    rw [hpieces] at ih
    rw [splitAt, hpieces]
    split
    · exact List.subset_cons_of_subset c ih
    · exact List.cons_subset_cons c ih

/-! ## Reading -/

/-- Digits give a number exactly if each of them is a decimal digit. -/
theorem readDecimal?_isSome (cs : List Char) : (readDecimal? cs).isSome = cs.all isDecimal := by
  have hfold (acc : Option Nat) :
      (cs.foldl (fun acc c => do return (← acc) * 10 + (← decimalValue? c)) acc).isSome =
        (acc.isSome && cs.all isDecimal) := by
    induction cs generalizing acc with
    | nil => simp
    | cons c rest ih =>
      rw [List.foldl_cons, ih, List.all_cons, ← Bool.and_assoc]
      cases acc with
      | none => rfl
      | some n =>
        unfold isDecimal
        cases decimalValue? c <;> rfl
  rw [readDecimal?, hfold]
  rfl

/-- A run of decimal digits writes an integer, and no negative one. -/
theorem readInteger?_decimals {cs : List Char} (hne : cs ≠ []) (h : ∀ c ∈ cs, isDecimal c = true) :
    ∃ n : Nat, readInteger? cs = some n := by
  have htrim : trim cs = cs := trim_of_no_space fun c hc => isSpace_of_isDecimal (h c hc)
  have hsign : takeSign cs = (false, cs) := by
    unfold takeSign
    split
    · exact absurd rfl (ne_of_isDecimal (h '-' List.mem_cons_self) (by decide))
    · exact absurd rfl (ne_of_isDecimal (h '+' List.mem_cons_self) (by decide))
    · rfl
  have hsplit : splitAt (· == '_') cs = [cs] :=
    splitAt_of_none fun c hc => beq_eq_false_iff_ne.mpr (ne_of_isDecimal (h c hc) (by decide))
  obtain ⟨n, hn⟩ := Option.isSome_iff_exists.mp
    ((readDecimal?_isSome cs).trans (List.all_eq_true.mpr h))
  refine ⟨n, ?_⟩
  simp [readInteger?, readGrouped?, htrim, hsign, hsplit, hne, hn]

theorem readGrouped?_of_no_decimal {cs : List Char} (h : ∀ c ∈ cs, isDecimal c = false) :
    readGrouped? cs = none := by
  rw [readGrouped?]
  split
  · rfl
  · rename_i hgroups
    -- the first group has a first character
    obtain ⟨piece, more, hpieces⟩ := List.exists_cons_of_ne_nil (splitAt_ne_nil (· == '_') cs)
    rw [hpieces, List.any_cons, Bool.or_eq_true, not_or] at hgroups
    obtain ⟨c, rest, hpiece⟩ := List.exists_cons_of_ne_nil (mt List.isEmpty_iff.mpr hgroups.1)
    have hc : c ∈ (splitAt (· == '_') cs).flatten := by
      rw [hpieces, hpiece]
      exact List.mem_cons_self
    have hdecimal := h c (flatten_splitAt_subset _ cs hc)
    rw [← Option.not_isSome_iff_eq_none, readDecimal?_isSome, List.all_eq_true]
    exact fun hall => absurd (hall c hc) (by simp [hdecimal])

/-- Without a decimal digit there is no integer. -/
theorem readInteger?_of_no_decimal {cs : List Char} (h : ∀ c ∈ cs, isDecimal c = false) :
    readInteger? cs = none := by
  have hnone : readGrouped? (takeSign (trim cs)).2 = none := readGrouped?_of_no_decimal fun c hc =>
    h c (trim_subset cs (takeSign_subset _ hc))
  simp [readInteger?, hnone]

/-- A run of decimal digits is read exactly if it is not too long. -/
theorem readInteger_decimals {cs : List Char} (hne : cs ≠ []) (h : ∀ c ∈ cs, isDecimal c = true) :
    (∃ n : Nat, readInteger cs = .ok n) ↔ cs.length ≤ digitLimit := by
  obtain ⟨n, hn⟩ := readInteger?_decimals hne h
  have hcount : cs.countP isDecimal = cs.length := List.countP_eq_length.mpr h
  rw [readInteger, hn, excessDigits?, hcount]
  by_cases hlong : digitLimit < cs.length
  · rw [if_pos hlong]
    exact ⟨fun ⟨n, hn⟩ => (by cases hn), fun hle => absurd hlong (Nat.not_lt.mpr hle)⟩
  · rw [if_neg hlong]
    exact ⟨fun _ => Nat.le_of_not_lt hlong, fun _ => ⟨n, rfl⟩⟩

/-! ## Written integers -/

theorem decimalValue?_of_isDigit {c : Char} (h : c.isDigit = true) :
    decimalValue? c = some (c.toNat - '0'.toNat) := by
  have hrange : 48 ≤ c.toNat ∧ c.toNat ≤ 57 := Char.isDigit_iff_toNat.mp h
  have hsmall : c.toNat < 128 := Nat.lt_of_le_of_lt hrange.2 (by decide)
  have hdigit : (decide (48 ≤ c.toNat) && decide (c.toNat ≤ 57)) = true := by simp [hrange]
  rw [decimalValue?, if_pos hsmall, if_pos hdigit]
  rfl

theorem isDecimal_of_isDigit {c : Char} (h : c.isDigit = true) : isDecimal c = true := by
  rw [isDecimal, decimalValue?_of_isDigit h]
  rfl

theorem readDecimal?_of_isDigit {cs : List Char} (h : ∀ c ∈ cs, c.isDigit = true) :
    readDecimal? cs = some (Nat.ofDigitChars 10 cs 0) := by
  have hfold (n : Nat) :
      cs.foldl (fun acc c => do return (← acc) * 10 + (← decimalValue? c)) (some n) =
        some (Nat.ofDigitChars 10 cs n) := by
    induction cs generalizing n with
    | nil => rfl
    | cons c rest ih =>
      have hstep : (do return (← some n) * 10 + (← decimalValue? c)) =
          some (10 * n + (c.toNat - '0'.toNat)) := by
        rw [decimalValue?_of_isDigit (h c List.mem_cons_self), Nat.mul_comm 10]
        rfl
      rw [List.foldl_cons, Nat.ofDigitChars_cons, hstep]
      exact ih (fun d hd => h d (List.mem_cons_of_mem c hd)) _
  exact hfold 0

theorem isDigit_of_mem_digits {n : Nat} {c : Char} (h : c ∈ Nat.toDigits 10 n) : c.isDigit = true :=
  Nat.isDigit_of_mem_toDigits (by decide) (by decide) h

theorem readGrouped?_digits (n : Nat) : readGrouped? (Nat.toDigits 10 n) = some n := by
  have hsplit : splitAt (· == '_') (Nat.toDigits 10 n) = [Nat.toDigits 10 n] :=
    splitAt_of_none fun c hc => beq_eq_false_iff_ne.mpr <|
      ne_of_isDecimal (isDecimal_of_isDigit (isDigit_of_mem_digits hc)) (by decide)
  have hread : readDecimal? (Nat.toDigits 10 n) = some n := by
    rw [readDecimal?_of_isDigit fun c hc => isDigit_of_mem_digits hc, Nat.ofDigitChars_ten_toDigits]
  simp [readGrouped?, hsplit, Nat.toDigits_ne_nil, hread]

/-- An integer is written with a minus sign, if it is negative, and the digits of its magnitude. -/
theorem toList_toString_int (n : Int) :
    (toString n).toList = (if n < 0 then ['-'] else []) ++ Nat.toDigits 10 n.natAbs := by
  cases n with
  | ofNat n =>
    have hpos : ¬ Int.ofNat n < 0 := by simp
    rw [if_neg hpos]
    show n.repr.toList = _
    rw [Nat.toList_repr]
    rfl
  | negSucc n =>
    rw [if_pos (Int.negSucc_lt_zero n)]
    show ("-" ++ (n + 1).repr).toList = _
    rw [String.toList_append, Nat.toList_repr]
    rfl

/-- What is written of an integer is read as that integer. -/
theorem readInteger?_toString (n : Int) : readInteger? (toString n).toList = some n := by
  have htrim : trim (toString n).toList = (toString n).toList := trim_of_no_space fun c hc => by
    rw [toList_toString_int, List.mem_append] at hc
    rcases hc with hc | hc
    · split at hc
      · rw [List.mem_singleton.mp hc]
        decide
      · cases hc
    · exact isSpace_of_isDecimal (isDecimal_of_isDigit (isDigit_of_mem_digits hc))
  rw [readInteger?, htrim, toList_toString_int]
  by_cases hneg : n < 0
  · rw [if_pos hneg]
    show (do let k ← readGrouped? (Nat.toDigits 10 n.natAbs); pure (k : Int)).map (-·) = some n
    rw [readGrouped?_digits]
    show some (-(n.natAbs : Int)) = some n
    rw [Int.ofNat_natAbs_of_nonpos (Int.le_of_lt hneg), Int.neg_neg]
  · have hsign : takeSign (Nat.toDigits 10 n.natAbs) = (false, Nat.toDigits 10 n.natAbs) := by
      have hdigit (c : Char) (rest : List Char) (h : Nat.toDigits 10 n.natAbs = c :: rest) :
          c.isDigit = true := isDigit_of_mem_digits (h ▸ List.mem_cons_self)
      unfold takeSign
      split
      · rename_i rest h
        cases hdigit _ rest h
      · rename_i rest h
        cases hdigit _ rest h
      · rfl
    rw [if_neg hneg, List.nil_append, hsign]
    show (do let k ← readGrouped? (Nat.toDigits 10 n.natAbs); pure (k : Int)).map id = some n
    rw [readGrouped?_digits]
    show some (n.natAbs : Int) = some n
    rw [Int.natAbs_of_nonneg (Int.not_lt.mp hneg)]

/-- An integer is read back exactly if it has not too many digits. -/
theorem readInteger_toString (n : Int) :
    readInteger (toString n).toList = .ok n ↔ (Nat.toDigits 10 n.natAbs).length ≤ digitLimit := by
  have hcount : (toString n).toList.countP isDecimal = (Nat.toDigits 10 n.natAbs).length := by
    have hsign : (if n < 0 then ['-'] else []).countP isDecimal = 0 := by
      split <;> rfl
    rw [toList_toString_int, List.countP_append, hsign, Nat.zero_add]
    exact List.countP_eq_length.mpr fun c hc => isDecimal_of_isDigit (isDigit_of_mem_digits hc)
  rw [readInteger, readInteger?_toString, excessDigits?, hcount]
  by_cases hlong : digitLimit < (Nat.toDigits 10 n.natAbs).length
  · rw [if_pos hlong]
    exact ⟨fun h => (by cases h), fun hle => absurd hlong (Nat.not_lt.mpr hle)⟩
  · rw [if_neg hlong]
    exact ⟨fun _ => Nat.le_of_not_lt hlong, fun _ => rfl⟩

end MemberOrder.Text
