/-
  Names that are numbers are ordered by the nearest numbers of the format.

  A number in its usual form has an exact value, a rational one (`exactValue`). What is read from it is
  the binary number nearest to that value (`isNearest_readNumber`). So without natural sorting two such
  names compare as the nearest numbers do, which is as the exact values do unless both come to the same
  number, and they come before all other names (`compareNames_numbers`). Neither quotes nor digits nor the
  white space around have a case, so it is the same with and without regard to case
  (`exactValue?_folded`).
-/
import Mathlib.Data.List.TakeWhile
import Mathlib.Data.Nat.Digits.Defs
import MemberOrder.Proofs.Number.Nearest
import MemberOrder.Proofs.Order.Comparing
import MemberOrder.Proofs.Pattern.Matches
import MemberOrder.Proofs.Text.Casing

namespace MemberOrder.Order

/-! ## Exact values -/

/-- The natural number that the decimal digits of a text write. -/
def digitsNumber (cs : List Char) : Nat := Nat.ofDigits 10 (cs.filterMap Text.decimalValue?).reverse

/-- The exact value of a number: the digits before the point count whole, those behind it as tenths,
hundredths and so on. -/
def exactValue (cs : List Char) : ℚ :=
  let whole := cs.takeWhile (· != '.')
  let fraction := cs.drop (whole.length + 1)
  (if cs.head? = some '-' then -1 else 1) *
    (digitsNumber whole + digitsNumber fraction / 10 ^ fraction.length)

/-- The exact value of a name that is a number, quotes and white space around it removed. -/
def exactValue? (name : List Char) : Option ℚ :=
  let clean := Text.trim (stripQuotes name)
  if canonicalNumber.fits (String.ofList clean) then some (exactValue clean) else none

/-! ## Reading -/

/-- A minus sign or a decimal digit. -/
def isWhole (c : Char) : Bool := c == '-' || Text.isDecimal c

theorem isDecimal_of_arabic {c : Char} (h : ('1' ≤ c && c ≤ '9') = true) : Text.isDecimal c = true := by
  rw [Bool.and_eq_true, decide_eq_true_eq, decide_eq_true_eq] at h
  have hlow : 49 ≤ c.toNat := h.1
  have hhigh : c.toNat ≤ 57 := h.2
  simp only [Text.isDecimal, Text.decimalValue?]
  rw [if_pos (by omega), if_pos (by simp; omega)]
  rfl

open Pattern in
/-- A number is a sign and digits, and perhaps a point with digits behind it. -/
theorem parts_of_fits {cs : List Char} (h : canonicalNumber.fits (String.ofList cs) = true) :
    ∃ front fraction, (∀ c ∈ front, isWhole c = true) ∧ (∀ c ∈ fraction, Text.isDecimal c = true) ∧
      (cs = front ++ '.' :: fraction ∨ cs = front ∧ fraction = []) := by
  have harabic (c : Char) (hc : ('1' ≤ c && c ≤ '9') = true) : isWhole c = true := by
    rw [isWhole, isDecimal_of_arabic hc, Bool.or_true]
  have hdecimal (c : Char) (hc : Text.isDecimal c = true) : isWhole c = true := by
    rw [isWhole, hc, Bool.or_true]
  have hsign : Within isWhole (.optional (.char '-')) :=
    within_optional (within_one fun c hc => by rw [isWhole, hc, Bool.true_or])
  have hwhole : Within isWhole (.either (.char '0')
      (.seq (.one fun c => '1' ≤ c && c ≤ '9') (.span Text.isDecimal))) := by
    refine within_either (within_one fun c hc => ?_) (within_seq (within_one harabic) (within_span hdecimal))
    rw [beq_iff_eq.mp hc]
    decide
  have hfraction : Within Text.isDecimal (.seq (.span Text.isDecimal) (.one fun c => '1' ≤ c && c ≤ '9')) :=
    within_seq (within_span fun _ hc => hc) (within_one fun _ => isDecimal_of_arabic)
  obtain ⟨t, ht⟩ : ∃ t, t = Text.ofString (String.ofList cs) := ⟨_, rfl⟩
  have hlist : t.slice 0 t.size = cs := by rw [Text.slice_full, ht, Text.ofString, String.toList_ofList]
  rw [fits, ← ht] at h
  obtain ⟨m, hm⟩ := Option.isSome_iff_exists.mp h
  obtain ⟨-, hstop, hmatch⟩ := fullMatch?_matches hm
  rw [hstop] at hmatch
  obtain ⟨i, _, _, hmatchSign, ⟨j, _, _, hmatchWhole, hpoint, -⟩, -⟩ := hmatch
  have hfront : ∀ c ∈ t.slice 0 j, isWhole c = true := by
    intro c hc
    obtain ⟨x, -, hx, hcx⟩ := Text.mem_slice.mp hc
    have htest : t.testAt x isWhole = true := by
      rcases Nat.lt_or_ge x i with hlt | hge
      · exact hsign _ _ _ _ _ hmatchSign x (Nat.zero_le x) hlt
      · exact hwhole _ _ _ _ _ hmatchWhole x hge hx
    rwa [Text.testAt_of_getElem? hcx] at htest
  rcases hpoint with ⟨k, _, _, ⟨hlt, hdot, rfl, -⟩, hrest, -⟩ | ⟨rfl, -⟩
  · refine ⟨t.slice 0 j, t.slice (j + 1) t.size, hfront, fun c hc => ?_, .inl ?_⟩
    · obtain ⟨x, hlow, hhigh, hcx⟩ := Text.mem_slice.mp hc
      have htest := hfraction _ _ _ _ _ hrest x hlow hhigh
      rwa [Text.testAt_of_getElem? hcx] at htest
    · rw [← hlist, ← Text.slice_append t (Nat.zero_le j) hlt.le, ← Text.slice_append t (Nat.le_succ j) hlt,
        Text.slice_one (Text.hasAt_iff.mp hdot)]
      rfl
  · exact ⟨t.slice 0 t.size, [], hfront, by simp, .inr ⟨hlist.symm, rfl⟩⟩

theorem ne_point_of_isWhole {c : Char} (h : isWhole c = true) : (c != '.') = true := by
  refine bne_iff_ne.mpr ?_
  rintro rfl
  revert h
  decide

/-- What stands behind the point of a number is digits. -/
theorem isDecimal_of_fraction {cs : List Char} (h : canonicalNumber.fits (String.ofList cs) = true) :
    ∀ c ∈ cs.drop ((cs.takeWhile (· != '.')).length + 1), Text.isDecimal c = true := by
  obtain ⟨front, fraction, hfront, hfraction, hcs⟩ := parts_of_fits h
  have hpoint := fun c hc => ne_point_of_isWhole (hfront c hc)
  rcases hcs with rfl | ⟨rfl, -⟩
  · have hwhole : (front ++ '.' :: fraction).takeWhile (· != '.') = front := by
      rw [List.takeWhile_append_of_pos hpoint]
      simp
    rw [hwhole, List.drop_length_add_append]
    exact hfraction
  · rw [List.takeWhile_eq_self_iff.mpr hpoint, List.drop_of_length_le (Nat.le_succ _)]
    simp

theorem foldl_eq_ofDigits (ds : List Nat) : ds.foldl (fun n d => n * 10 + d) 0 = Nat.ofDigits 10 ds.reverse := by
  rw [Nat.ofDigits_eq_foldr, List.foldr_reverse]
  congr 1
  funext n d
  rw [Nat.cast_id, Nat.add_comm, Nat.mul_comm]

theorem length_digits {cs : List Char} (h : ∀ c ∈ cs, Text.isDecimal c = true) :
    (cs.filterMap Text.decimalValue?).length = cs.length := by
  induction cs with
  | nil => rfl
  | cons c rest ih =>
    obtain ⟨d, hd⟩ := Option.isSome_iff_exists.mp (h c List.mem_cons_self)
    rw [List.filterMap_cons_some hd, List.length_cons, List.length_cons,
      ih fun x hx => h x (List.mem_cons_of_mem c hx)]

theorem digitsNumber_append {whole fraction : List Char} (h : ∀ c ∈ fraction, Text.isDecimal c = true) :
    digitsNumber (whole ++ fraction) = digitsNumber whole * 10 ^ fraction.length + digitsNumber fraction := by
  rw [digitsNumber, List.filterMap_append, List.reverse_append, Nat.ofDigits_append, List.length_reverse,
    length_digits h, Nat.add_comm, Nat.mul_comm]
  rfl

/-- A number is read as the number of the format that is nearest to its exact value. -/
theorem isNearest_readNumber {cs : List Char} (h : canonicalNumber.fits (String.ofList cs) = true) :
    (readNumber cs).IsNearest (exactValue cs) := by
  obtain ⟨whole, hwhole⟩ : ∃ whole, whole = cs.takeWhile (· != '.') := ⟨_, rfl⟩
  obtain ⟨fraction, hfraction⟩ : ∃ fraction, fraction = cs.drop (whole.length + 1) := ⟨_, rfl⟩
  have hdigits : ∀ c ∈ fraction, Text.isDecimal c = true := by
    rw [hfraction, hwhole]
    exact isDecimal_of_fraction h
  have hvalue : exactValue cs = (if cs.head? == some '-' then -1 else 1) *
      ((digitsNumber (whole ++ fraction) : ℚ) * 10 ^ (-(fraction.length : Int))) := by
    have hpow : (10 : ℚ) ^ fraction.length ≠ 0 := pow_ne_zero _ (by norm_num)
    rw [digitsNumber_append hdigits, zpow_neg, zpow_natCast, ← div_eq_mul_inv]
    push_cast
    rw [add_div, mul_div_cancel_right₀ _ hpow, hfraction, hwhole]
    simp only [exactValue, beq_iff_eq]
  rw [hvalue, readNumber, ← hwhole]
  simp only [← hfraction, foldl_eq_ofDigits]
  exact Binary64.isNearest_ofDecimal _ _ _

/-! ## Names -/

theorem numericValue?_isSome (name : List Char) : (numericValue? name).isSome = (exactValue? name).isSome := by
  simp only [numericValue?, exactValue?]
  split <;> rfl

theorem numericValue?_isNearest {name : List Char} {x : ℚ} (h : exactValue? name = some x) :
    ∃ v, numericValue? name = some v ∧ v.IsNearest x := by
  simp only [exactValue?, Option.ite_none_right_eq_some, Option.some.injEq] at h
  obtain ⟨hfits, rfl⟩ := h
  refine ⟨_, ?_, isNearest_readNumber hfits⟩
  simp only [numericValue?, if_pos hfits]

theorem mem_or_isQuote {cs : List Char} {c : Char} (h : c ∈ cs) : isQuote c = true ∨ c ∈ stripQuotes cs := by
  unfold stripQuotes
  split
  · rename_i first rest
    split
    · rename_i hquoted
      rw [Bool.and_eq_true, Bool.and_eq_true] at hquoted
      obtain ⟨⟨hquote, -⟩, hlast⟩ := hquoted
      obtain ⟨ys, hrest⟩ := List.getLast?_eq_some_iff.mp (beq_iff_eq.mp hlast)
      rw [hrest] at h ⊢
      rw [List.dropLast_concat]
      simp only [List.mem_cons, List.mem_append, List.not_mem_nil, or_false] at h
      rcases h with rfl | h | rfl
      · exact .inl hquote
      · exact .inr h
      · exact .inl hquote
    · exact .inr h
  · exact .inr h

theorem mem_or_isSpace {cs : List Char} {c : Char} (h : c ∈ cs) : Text.isSpace c = true ∨ c ∈ Text.trim cs := by
  have hdrop {xs : List Char} (hx : c ∈ xs) : Text.isSpace c = true ∨ c ∈ xs.dropWhile Text.isSpace := by
    rw [← List.takeWhile_append_dropWhile (p := Text.isSpace) (l := xs), List.mem_append] at hx
    exact hx.imp_left fun htaken => List.mem_takeWhile_imp htaken
  rcases hdrop h with hspace | hleft
  · exact .inl hspace
  · exact (hdrop (List.mem_reverse.mpr hleft)).imp_right List.mem_reverse.mpr

theorem isNeutral_of_isWhole {c : Char} (h : isWhole c = true) : Text.isNeutral c = true := by
  rw [isWhole, Bool.or_eq_true, beq_iff_eq] at h
  rcases h with rfl | h
  · decide
  · rw [Text.isNeutral, h, Bool.or_true, Bool.true_or]

theorem isNeutral_of_isQuote {c : Char} (h : isQuote c = true) : Text.isNeutral c = true := by
  simp only [isQuote, Bool.or_eq_true, beq_iff_eq] at h
  have hcode : c.toNat = 34 ∨ c.toNat = 39 ∨ c.toNat = 96 := by
    rcases h with (rfl | h) | h
    · exact .inl rfl
    · exact .inr (.inl h)
    · exact .inr (.inr h)
  rw [Text.isNeutral, Bool.or_eq_true]
  right
  simp
  omega

/-- What a number is written with has no case. -/
theorem neutral_of_number {name : List Char} (h : (exactValue? name).isSome = true) :
    ∀ c ∈ name, Text.isNeutral c = true := by
  intro c hc
  simp only [exactValue?, Option.isSome_ite] at h
  rcases mem_or_isQuote hc with hquote | hc
  · exact isNeutral_of_isQuote hquote
  rcases mem_or_isSpace hc with hspace | hc
  · rw [Text.isNeutral, hspace, Bool.true_or, Bool.true_or]
  obtain ⟨front, fraction, hfront, hfraction, hclean⟩ := parts_of_fits h
  have hdigit (hin : c ∈ fraction) : Text.isNeutral c = true :=
    isNeutral_of_isWhole (by rw [isWhole, hfraction c hin, Bool.or_true])
  rcases hclean with hclean | ⟨hclean, -⟩
  · rw [hclean, List.mem_append, List.mem_cons] at hc
    rcases hc with hc | rfl | hc
    · exact isNeutral_of_isWhole (hfront c hc)
    · decide
    · exact hdigit hc
  · exact isNeutral_of_isWhole (hfront c (hclean ▸ hc))

/-- A name has the same value with and without regard to case. -/
theorem exactValue?_folded (o : Options) (name : String) :
    exactValue? (foldedName o name) = exactValue? name.toList := by
  unfold foldedName
  split
  · rfl
  by_cases hnumber : (exactValue? name.toList).isSome = true
  · rw [Text.lower_of_neutral (neutral_of_number hnumber)]
  by_cases hlower : (exactValue? (Text.lower name).toList).isSome = true
  · rw [Text.eq_of_neutral_lower (neutral_of_number hlower)]
  · rw [Option.not_isSome_iff_eq_none.mp hnumber, Option.not_isSome_iff_eq_none.mp hlower]

/-! ## Comparing -/

theorem directed_inj {o : Options} {r r' : Ordering} : directed o r = directed o r' ↔ r = r' := by
  unfold directed
  split
  · exact Ordering.swap_inj
  · rfl

section Numbers

variable {o : Options} (hplain : o.naturalSort = false) {a b : String} {x y : ℚ}
include hplain

/-- Two numbers are compared by the nearest numbers of the format. -/
theorem compareNames_nearest (ha : exactValue? a.toList = some x) (hb : exactValue? b.toList = some y) :
    ∃ v w : Binary64, v.IsNearest x ∧ w.IsNearest y ∧
      compareNames o a b = .ok (directed o (compare v.toRat w.toRat)) := by
  rw [← exactValue?_folded o] at ha hb
  obtain ⟨v, hv, hnearest⟩ := numericValue?_isNearest ha
  obtain ⟨w, hw, hnearest'⟩ := numericValue?_isNearest hb
  refine ⟨v, w, hnearest, hnearest', ?_⟩
  have horder : comparePlain (foldedName o a) (foldedName o b) = v.order w := by
    delta comparePlain
    rw [hv, hw]
  rw [compareNames_plain hplain, horder, Binary64.order_eq]

/-- A number comes before every other name, and after it in descending order. -/
theorem compareNames_other (ha : exactValue? a.toList = some x) (hb : exactValue? b.toList = none) :
    compareNames o a b = .ok (directed o .lt) ∧ compareNames o b a = .ok (directed o .gt) := by
  rw [← exactValue?_folded o] at ha hb
  obtain ⟨v, hv, -⟩ := numericValue?_isNearest ha
  have hnone : numericValue? (foldedName o b) = none := by
    rw [← Option.not_isSome_iff_eq_none, numericValue?_isSome, hb]
    decide
  rw [compareNames_plain hplain, compareNames_plain hplain]
  delta comparePlain
  rw [hv, hnone]
  exact ⟨rfl, rfl⟩

/-- Numbers that the format has are compared exactly. -/
theorem compareNames_exact {v w : Binary64} (hv : v.magnitude ≤ Binary64.infinite)
    (hw : w.magnitude ≤ Binary64.infinite) (ha : exactValue? a.toList = some v.toRat)
    (hb : exactValue? b.toList = some w.toRat) :
    compareNames o a b = .ok (directed o (compare v.toRat w.toRat)) := by
  obtain ⟨v', w', hnearest, hnearest', hcompare⟩ := compareNames_nearest hplain ha hb
  rw [hcompare, hnearest.exact hv, hnearest'.exact hw]

/-- Without natural sorting a number comes before every name that is none, and two numbers compare as the
nearest numbers of the format do: as their exact values, unless these differ and come to the same
number. -/
theorem compareNames_numbers (ha : exactValue? a.toList = some x) :
    (∀ y, exactValue? b.toList = some y → ∃ v w : Binary64, v.IsNearest x ∧ w.IsNearest y ∧
      compareNames o a b = .ok (directed o (compare v.toRat w.toRat)) ∧
      (compareNames o a b = .ok (directed o (compare x y)) ↔ (v.toRat = w.toRat → x = y))) ∧
    (exactValue? b.toList = none →
      compareNames o a b = .ok (directed o .lt) ∧ compareNames o b a = .ok (directed o .gt)) := by
  refine ⟨fun y hb => ?_, compareNames_other hplain ha⟩
  obtain ⟨v, w, hv, hw, hcompare⟩ := compareNames_nearest hplain ha hb
  refine ⟨v, w, hv, hw, hcompare, ?_⟩
  rw [hcompare, Except.ok.injEq, directed_inj]
  exact hv.compare_eq_iff hw

end Numbers

theorem compareNames_numbers_long : (default : Options).naturalSort = false ∧
    exactValue? "'9007199254740993'".toList = some 9007199254740993 ∧
    exactValue? "9007199254740992".toList = some 9007199254740992 ∧ exactValue? "total".toList = none ∧
    (∃ v w : Binary64, v.IsNearest 9007199254740993 ∧ w.IsNearest 9007199254740992 ∧
      compareNames default "'9007199254740993'" "9007199254740992" = .ok (compare v.toRat w.toRat)) ∧
    compareNames default "'9007199254740993'" "total" = .ok .lt := by
  have hlong : exactValue? "'9007199254740993'".toList = some 9007199254740993 := by decide +kernel
  have heven : exactValue? "9007199254740992".toList = some 9007199254740992 := by decide +kernel
  have hword : exactValue? "total".toList = none := by decide
  obtain ⟨v, w, hv, hw, hcompare, -⟩ :=
    (compareNames_numbers (o := default) rfl (b := "9007199254740992") hlong).1 _ heven
  exact ⟨rfl, hlong, heven, hword, ⟨v, w, hv, hw, hcompare⟩,
    ((compareNames_numbers (o := default) rfl hlong).2 hword).1⟩

/-- Two long numbers that differ can come to the same number, and then neither comes first. -/
theorem compareNames_of_rounded : ¬∀ (o : Options) (a b : String) (x y : ℚ), o.naturalSort = false →
    exactValue? a.toList = some x → exactValue? b.toList = some y →
    compareNames o a b = .ok (directed o (compare x y)) := by
  intro h
  have hcompare := h default "9007199254740993" "9007199254740992" 9007199254740993 9007199254740992 rfl
    (by decide +kernel) (by decide +kernel)
  have hequal : compareNames default "9007199254740993" "9007199254740992" = .ok .eq := by decide
  have hgreater : compare (9007199254740993 : ℚ) 9007199254740992 = .gt := compare_gt_iff_gt.mpr (by norm_num)
  rw [hequal, hgreater] at hcompare
  cases hcompare

end MemberOrder.Order
