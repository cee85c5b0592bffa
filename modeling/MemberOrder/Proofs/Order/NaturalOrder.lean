/-
  Natural order as a preorder.

  Two texts are compared run by run; a run that is missing counts as empty, and so comes before every
  run that is there. Comparing the other way around gives the opposite answer, and a text can be
  compared with itself exactly if its runs of digit characters are numbers (`compareNatural_self_iff`):
  superscript digits are digit characters, but no run of them is a number.

  Whether natural order is transitive depends on the characters. A run of decimal digits counts by value
  among its like and by code points among other runs, and the decimal digits of the scripts lie far
  apart, with letters between them. As long as no other character stands between two decimal digits
  (`Unmixed`), the runs fall into three ranks, those below the digits, the numbers, and those above the
  digits, and natural order is the lexicographic order of runs by rank, number and code points
  (`compareNatural_eq`).
-/
import MemberOrder.Proofs.Order.Steadiness
import MemberOrder.Proofs.Text.Digits

namespace MemberOrder.Order

open Std

/-! ## Runs -/

/-- A run: there is something in it, and that is decimal digits throughout or none at all. -/
structure IsRun (run : List Char) : Prop where
  ne_nil : run ≠ []
  uniform : ∀ c ∈ run, ∀ d ∈ run, Text.isDecimal c = Text.isDecimal d

theorem flatten_digitRuns (cs : List Char) : (digitRuns cs).flatten = cs := by
  induction cs with
  | nil => rfl
  | cons c rest ih =>
    rw [digitRuns]
    split
    · rename_i d run others hruns
      rw [hruns] at ih
      split
      · exact congrArg (c :: ·) ih
      · exact congrArg (c :: ·) ih
    · exact congrArg (c :: ·) ih

theorem isRun_of_mem {cs run : List Char} (h : run ∈ digitRuns cs) : IsRun run := by
  have hsingle (c : Char) : IsRun [c] := by
    refine ⟨List.cons_ne_nil c [], fun x hx y hy => ?_⟩
    rw [List.mem_singleton.mp hx, List.mem_singleton.mp hy]
  induction cs generalizing run with
  | nil => cases h
  | cons c rest ih =>
    rw [digitRuns] at h
    split at h
    · rename_i d others more hruns
      have hnext : IsRun (d :: others) := ih (hruns ▸ List.mem_cons_self)
      split at h
      · rename_i hsame
        rcases List.mem_cons.mp h with rfl | h
        · -- the character is like the first of the run, and that is like all of the run
          have hlike : ∀ x ∈ c :: d :: others, Text.isDecimal x = Text.isDecimal d := by
            intro x hx
            rcases List.mem_cons.mp hx with rfl | hx
            · exact eq_of_beq hsame
            · exact hnext.uniform x hx d List.mem_cons_self
          exact ⟨List.cons_ne_nil _ _, fun x hx y hy => (hlike x hx).trans (hlike y hy).symm⟩
        · exact ih (hruns ▸ List.mem_cons_of_mem _ h)
      · rcases List.mem_cons.mp h with rfl | h
        · exact hsingle c
        · exact ih (hruns ▸ h)
    · rcases List.mem_cons.mp h with rfl | h
      · exact hsingle c
      · exact ih h

theorem mem_of_mem_run {cs run : List Char} (h : run ∈ digitRuns cs) {c : Char} (hc : c ∈ run) :
    c ∈ cs := by
  rw [← flatten_digitRuns cs]
  exact List.mem_flatten.mpr ⟨run, h, hc⟩

/-- A run that is a number, if it consists of digit characters. -/
def isReadable (run : List Char) : Bool :=
  !isDigits run || (run.all Text.isDecimal && run.length ≤ Text.digitLimit)

/-- Whether the runs of digit characters of a text are numbers. -/
def readable (cs : List Char) : Bool := (digitRuns cs).all isReadable

/-- The number of a run; what is none counts as zero. -/
def runNumber (run : List Char) : Nat :=
  match runValue run with
  | .ok n => n
  | .error _ => 0

theorem isDigits_of_all {run : List Char} (hne : run ≠ []) (h : run.all Text.isDecimal = true) :
    isDigits run = true := by
  have hdigit : run.all Text.isDigit = true := List.all_eq_true.mpr fun c hc => by
    rw [Text.isDigit, List.all_eq_true.mp h c hc, Bool.true_or]
  simp [isDigits, hne, hdigit]

/-- A run of digit characters is a number exactly if it is readable. -/
theorem runValue_ok_iff {run : List Char} (hrun : IsRun run) (hdigits : isDigits run = true) :
    (∃ n, runValue run = .ok n) ↔ isReadable run = true := by
  rw [isReadable, hdigits, Bool.not_true, Bool.false_or, Bool.and_eq_true, decide_eq_true_eq]
  have hvalue : (∃ n, runValue run = .ok n) ↔ ∃ n, Text.readInteger run = .ok n := by
    unfold runValue
    cases Text.readInteger run <;> simp
  rw [hvalue]
  by_cases hall : run.all Text.isDecimal = true
  · have hdecimal := List.all_eq_true.mp hall
    rw [← Text.readInteger_decimals hrun.ne_nil hdecimal]
    refine ⟨fun ⟨n, hn⟩ => ⟨hall, ?_⟩, fun ⟨_, n, hn⟩ => ⟨n, hn⟩⟩
    obtain ⟨m, hm⟩ := Text.readInteger?_decimals hrun.ne_nil hdecimal
    unfold Text.readInteger at hn ⊢
    rw [hm] at hn ⊢
    cases hexcess : Text.excessDigits? run with
    | none => exact ⟨m, rfl⟩
    | some count =>
      rw [hexcess] at hn
      cases hn
  · -- one character is no decimal digit, so none is
    have hnone : ∀ c ∈ run, Text.isDecimal c = false := by
      intro c hc
      refine Bool.eq_false_iff.mpr fun hdecimal => hall (List.all_eq_true.mpr fun d hd => ?_)
      rw [hrun.uniform d hd c hc, hdecimal]
    refine ⟨fun ⟨n, hn⟩ => ?_, fun ⟨h, _⟩ => absurd h hall⟩
    rw [Text.readInteger, Text.readInteger?_of_no_decimal hnone] at hn
    cases hn

theorem runValue_runNumber {run : List Char} (hrun : IsRun run) (hdigits : isDigits run = true)
    (hreadable : isReadable run = true) : runValue run = .ok (runNumber run) := by
  obtain ⟨n, hn⟩ := (runValue_ok_iff hrun hdigits).mpr hreadable
  rw [runNumber, hn]

/-! ## Both ways -/

theorem compareRun_swap {a b : List Char} {r : Ordering} (h : compareRun a b = .ok r) :
    compareRun b a = .ok r.swap := by
  unfold compareRun at h ⊢
  rw [Bool.and_comm]
  split at h
  · rename_i hdigits
    obtain ⟨m, hm, h⟩ := bind_ok h
    obtain ⟨n, hn, h⟩ := bind_ok h
    cases h
    rw [if_pos hdigits, hm, hn]
    exact congrArg Except.ok (Nat.compare_swap m n).symm
  · rename_i hdigits
    cases h
    rw [if_neg hdigits]
    exact congrArg Except.ok OrientedCmp.eq_swap

/-- Comparing run by run compares the first runs, and where they are equal the others. -/
theorem compareRuns_step (as bs : List (List Char)) : compareRuns as bs = (do
    match ← compareRun (as.headD []) (bs.headD []) with
    | .eq => compareRuns as.tail bs.tail
    | r => return r) := by
  cases as with
  | nil =>
    cases bs with
    | nil => rfl
    | cons b bs => rw [compareRuns]; rfl
  | cons a as => cases bs <;> rw [compareRuns] <;> rfl

/-- What holds of two lists of runs if it holds of what follows their first runs holds of any two. -/
theorem runs_induction {P : List (List Char) → List (List Char) → Prop} (hnil : P [] [])
    (hstep : ∀ as bs, P as.tail bs.tail → P as bs) (as bs : List (List Char)) : P as bs := by
  induction as generalizing bs with
  | nil =>
    induction bs with
    | nil => exact hnil
    | cons b rest ih => exact hstep [] (b :: rest) ih
  | cons a rest ih => exact hstep (a :: rest) bs (ih bs.tail)

theorem compareRuns_swap {as bs : List (List Char)} {r : Ordering} (h : compareRuns as bs = .ok r) :
    compareRuns bs as = .ok r.swap := by
  revert r
  refine runs_induction (P := fun as bs => ∀ {r}, compareRuns as bs = .ok r →
    compareRuns bs as = .ok r.swap) (fun {r} h => ?_) (fun as bs ih r h => ?_) as bs
  · rw [compareRuns] at h ⊢
    cases h
    rfl
  · rw [compareRuns_step] at h ⊢
    obtain ⟨first, hfirst, h⟩ := bind_ok h
    rw [compareRun_swap hfirst]
    cases first with
    | lt =>
      cases h
      rfl
    | gt =>
      cases h
      rfl
    | eq => exact ih h

theorem compareNatural_swap {a b : List Char} {r : Ordering} (h : compareNatural a b = .ok r) :
    compareNatural b a = .ok r.swap :=
  compareRuns_swap h

theorem compareRun_self {run : List Char} (hrun : IsRun run) :
    (∃ r, compareRun run run = .ok r) ↔ isReadable run = true := by
  unfold compareRun
  rw [Bool.and_self]
  by_cases hdigits : isDigits run = true
  · rw [if_pos hdigits, ← runValue_ok_iff hrun hdigits]
    constructor
    · rintro ⟨r, hr⟩
      obtain ⟨n, hn, -⟩ := bind_ok hr
      exact ⟨n, hn⟩
    · rintro ⟨n, hn⟩
      rw [hn]
      exact ⟨_, rfl⟩
  · rw [if_neg hdigits, isReadable, Bool.eq_false_iff.mpr hdigits]
    exact ⟨fun _ => rfl, fun _ => ⟨_, rfl⟩⟩

/-- A text can be compared with itself exactly if it is readable. -/
theorem compareNatural_self_iff (a : List Char) :
    compareNatural a a = .ok .eq ↔ readable a = true := by
  have hruns : ∀ run ∈ digitRuns a, IsRun run := fun _ => isRun_of_mem
  unfold compareNatural readable
  revert hruns
  induction digitRuns a with
  | nil => simp [compareRuns]
  | cons run rest ih =>
    intro hruns
    have hrest : compareRuns rest rest = .ok .eq ↔ rest.all isReadable = true :=
      ih fun other hother => hruns other (List.mem_cons_of_mem run hother)
    rw [List.all_cons, Bool.and_eq_true, ← hrest, ← compareRun_self (hruns run List.mem_cons_self),
      compareRuns_step, List.headD_cons, List.tail_cons]
    constructor
    · intro h
      obtain ⟨first, hfirst, h⟩ := bind_ok h
      cases first with
      | lt => cases h
      | gt => cases h
      | eq => exact ⟨⟨_, hfirst⟩, h⟩
    · rintro ⟨⟨first, hfirst⟩, h⟩
      -- the answer is its own opposite
      have hback := compareRun_swap hfirst
      rw [hfirst] at hback
      obtain rfl : first = .eq := by
        cases first <;> first | rfl | cases hback
      show (compareRun run run >>= _) = _
      rw [hfirst]
      exact h

/-- Two runs can be compared if each of them is a number in case it consists of digits. -/
theorem compareRun_ok {a b : List Char} (ha : isDigits a = true → ∃ n, runValue a = .ok n)
    (hb : isDigits b = true → ∃ n, runValue b = .ok n) : ∃ r, compareRun a b = .ok r := by
  unfold compareRun
  split
  · rename_i hdigits
    rw [Bool.and_eq_true] at hdigits
    obtain ⟨m, hm⟩ := ha hdigits.1
    obtain ⟨n, hn⟩ := hb hdigits.2
    rw [hm, hn]
    exact ⟨_, rfl⟩
  · exact ⟨_, rfl⟩

/-- Readable texts can be compared. -/
theorem compareNatural_ok {a b : List Char} (ha : readable a = true) (hb : readable b = true) :
    ∃ r, compareNatural a b = .ok r := by
  have hruns {cs : List Char} (hcs : readable cs = true) :
      ∀ run ∈ digitRuns cs, isDigits run = true → ∃ n, runValue run = .ok n := fun run hrun hdigits =>
    (runValue_ok_iff (isRun_of_mem hrun) hdigits).mpr (List.all_eq_true.mp hcs run hrun)
  have hhead {runs : List (List Char)}
      (h : ∀ run ∈ runs, isDigits run = true → ∃ n, runValue run = .ok n) :
      isDigits (runs.headD []) = true → ∃ n, runValue (runs.headD []) = .ok n := by
    cases runs with
    | nil => exact fun hdigits => nomatch hdigits
    | cons run rest => exact h run List.mem_cons_self
  refine runs_induction (P := fun as bs =>
    (∀ run ∈ as, isDigits run = true → ∃ n, runValue run = .ok n) →
    (∀ run ∈ bs, isDigits run = true → ∃ n, runValue run = .ok n) →
    ∃ r, compareRuns as bs = .ok r) (fun _ _ => ⟨.eq, by rw [compareRuns]⟩) (fun as bs ih ha hb => ?_)
    (digitRuns a) (digitRuns b) (hruns ha) (hruns hb)
  obtain ⟨first, hfirst⟩ := compareRun_ok (hhead ha) (hhead hb)
  rw [compareRuns_step, hfirst]
  cases first with
  | lt => exact ⟨_, rfl⟩
  | gt => exact ⟨_, rfl⟩
  | eq => exact ih (fun run h => ha run (List.mem_of_mem_tail h)) fun run h => hb run (List.mem_of_mem_tail h)

/-! ## Keys of runs -/

/-- No character that is no decimal digit stands between two that are. -/
def Unmixed (cs : List Char) : Prop :=
  ∀ x ∈ cs, ∀ y ∈ cs, ∀ z ∈ cs, Text.isDecimal x = true → Text.isDecimal y = true →
    Text.isDecimal z = false → ¬(x.toNat < z.toNat ∧ z.toNat < y.toNat)

/-- Whether a character stands before a decimal digit of `cs`. -/
def isBelowDigits (cs : List Char) (c : Char) : Bool :=
  cs.any fun d => Text.isDecimal d && c.toNat < d.toNat

/-- The rank of a run among the characters `cs`: below the decimal digits, a number, or above the decimal
digits. -/
def runRank (cs run : List Char) : Nat :=
  match run with
  | [] => 0
  | c :: _ => if Text.isDecimal c then 1 else if isBelowDigits cs c then 0 else 2

/-- The number by which a run is compared; only numbers have one. -/
def numberOfRun (cs run : List Char) : Nat := if runRank cs run == 1 then runNumber run else 0

/-- The code points by which a run is compared that is no number. -/
def codesOfRun (cs run : List Char) : List Char := if runRank cs run == 1 then [] else run

/-- The order of runs among the characters `cs`. -/
def runOrder (cs : List Char) : List Char → List Char → Ordering :=
  compareLex (compareOn (runRank cs)) (compareLex (compareOn (numberOfRun cs))
    fun a b => compareChars (codesOfRun cs a) (codesOfRun cs b))

instance runOrder_trans (cs : List Char) : TransCmp (runOrder cs) := by
  have := transCmp_on compareChars (codesOfRun cs)
  unfold runOrder
  infer_instance

section Keys

variable {cs a b : List Char}

/-- What is compared: a run of the characters `cs` that can be read, or nothing in place of a run. -/
structure Comparable (cs run : List Char) : Prop where
  subset : run ⊆ cs
  uniform : ∀ c ∈ run, ∀ d ∈ run, Text.isDecimal c = Text.isDecimal d
  readable : isReadable run = true

theorem comparable_of_mem (hsub : a ⊆ cs) (hreadable : readable a = true) {run : List Char}
    (h : run ∈ digitRuns a) : Comparable cs run where
  subset _ hc := hsub (mem_of_mem_run h hc)
  uniform := (isRun_of_mem h).uniform
  readable := List.all_eq_true.mp hreadable run h

/-- The numbers are the runs of the middle rank. -/
theorem Comparable.isDigits_eq (h : Comparable cs a) : isDigits a = (runRank cs a == 1) := by
  cases a with
  | nil => rfl
  | cons c rest =>
    cases hc : Text.isDecimal c with
    | true =>
      have hall : (c :: rest).all Text.isDecimal = true := List.all_eq_true.mpr fun d hd => by
        rw [h.uniform d hd c List.mem_cons_self, hc]
      rw [isDigits_of_all (List.cons_ne_nil c rest) hall, runRank, if_pos hc]
      rfl
    | false =>
      have hdigits : isDigits (c :: rest) = false := Bool.eq_false_iff.mpr fun hdigits => by
        have hreadable := h.readable
        simp [isReadable, hdigits, hc] at hreadable
      rw [hdigits, runRank, if_neg (by simp [hc])]
      split <;> rfl

theorem Comparable.runValue_eq (h : Comparable cs a) (hrank : runRank cs a = 1) :
    runValue a = .ok (numberOfRun cs a) := by
  have hdigits : isDigits a = true := by rw [h.isDigits_eq, hrank]; rfl
  have hne : a ≠ [] := by
    rintro rfl
    cases hrank
  rw [numberOfRun, hrank]
  exact runValue_runNumber ⟨hne, h.uniform⟩ hdigits h.readable

theorem toNat_lt_of_ne {c d : Char} (h : c ≠ d) (hle : ¬d.toNat < c.toNat) : c.toNat < d.toNat :=
  Nat.lt_of_le_of_ne (Nat.le_of_not_lt hle) fun heq => h (Char.toNat_inj.mp heq)

/-- Runs of different ranks are ordered as their first characters are. -/
theorem compareChars_of_rank_lt (hmixed : Unmixed cs) (ha : a ⊆ cs) (hb : b ⊆ cs)
    (h : runRank cs a < runRank cs b) : compareChars a b = .lt := by
  cases b with
  | nil => exact absurd h (Nat.not_lt_zero _)
  | cons d others =>
    cases a with
    | nil => rfl
    | cons c rest =>
      have hc : c ∈ cs := ha List.mem_cons_self
      have hd : d ∈ cs := hb List.mem_cons_self
      have hbelow (z : Char) : isBelowDigits cs z = true ↔
          ∃ x ∈ cs, Text.isDecimal x = true ∧ z.toNat < x.toNat := by
        simp [isBelowDigits]
      have habove {z x : Char} (hz : isBelowDigits cs z = false) (hx : x ∈ cs)
          (hdecimal : Text.isDecimal x = true) : ¬z.toNat < x.toNat := fun hlt =>
        Bool.eq_false_iff.mp hz ((hbelow z).mpr ⟨x, hx, hdecimal, hlt⟩)
      have hlt : c.toNat < d.toNat := by
        unfold runRank at h
        cases hcd : Text.isDecimal c <;> cases hdd : Text.isDecimal d <;>
          simp only [hcd, hdd, Bool.false_eq_true, if_true, if_false] at h
        case false.false =>
          -- a decimal digit stands between the two
          cases hcb : isBelowDigits cs c <;> cases hdb : isBelowDigits cs d <;> simp [hcb, hdb] at h
          obtain ⟨x, hx, hdecimal, hlt⟩ := (hbelow c).mp hcb
          exact Nat.lt_of_lt_of_le hlt (Nat.le_of_not_lt (habove hdb hx hdecimal))
        case false.true =>
          cases hcb : isBelowDigits cs c <;> simp [hcb] at h
          obtain ⟨x, hx, hdecimal, hlt⟩ := (hbelow c).mp hcb
          refine toNat_lt_of_ne (Text.ne_of_isDecimal hdd hcd).symm fun hgt => ?_
          exact hmixed d hd x hx c hc hdd hdecimal hcd ⟨hgt, hlt⟩
        case true.false =>
          cases hdb : isBelowDigits cs d <;> simp [hdb] at h
          exact toNat_lt_of_ne (Text.ne_of_isDecimal hcd hdd) (habove hdb hc hcd)
        case true.true => exact absurd h (Nat.lt_irrefl 1)
      rw [compareChars, Nat.compare_eq_lt.mpr hlt]

/-- Among characters that are unmixed, runs are compared by their keys. -/
theorem compareRun_eq (hmixed : Unmixed cs) (ha : Comparable cs a) (hb : Comparable cs b) :
    compareRun a b = .ok (runOrder cs a b) := by
  unfold compareRun
  simp only [ha.isDigits_eq, hb.isDigits_eq, runOrder, compareLex, compareOn]
  rcases Nat.lt_trichotomy (runRank cs a) (runRank cs b) with hlt | heq | hgt
  · have hnot : (runRank cs a == 1 && runRank cs b == 1) = false := by
      simp only [Bool.and_eq_false_iff, beq_eq_false_iff_ne]
      omega
    rw [hnot, if_neg (by decide), compareChars_of_rank_lt hmixed ha.subset hb.subset hlt,
      Nat.compare_eq_lt.mpr hlt]
    rfl
  · rw [Nat.compare_eq_eq.mpr heq, ← heq, Bool.and_self]
    by_cases hrank : runRank cs a = 1
    · have hrank' : runRank cs b = 1 := heq ▸ hrank
      rw [if_pos (beq_iff_eq.mpr hrank), ha.runValue_eq hrank, hb.runValue_eq hrank']
      simp only [codesOfRun, hrank, hrank', beq_self_eq_true, if_true, compareChars, Ordering.then_eq]
      rfl
    · have hrank' : runRank cs b ≠ 1 := heq ▸ hrank
      simp only [numberOfRun, codesOfRun, beq_eq_false_iff_ne.mpr hrank,
        beq_eq_false_iff_ne.mpr hrank', Bool.false_eq_true, if_false]
      rfl
  · have hnot : (runRank cs a == 1 && runRank cs b == 1) = false := by
      simp only [Bool.and_eq_false_iff, beq_eq_false_iff_ne]
      omega
    have hswap : compareChars a b = (compareChars b a).swap := OrientedCmp.eq_swap
    have hback : compareChars a b = .gt := by
      rw [hswap, compareChars_of_rank_lt hmixed hb.subset ha.subset hgt]
      rfl
    rw [hnot, if_neg (by decide), hback, Nat.compare_eq_gt.mpr hgt]
    rfl

theorem compareRuns_eq (hmixed : Unmixed cs) {as bs : List (List Char)}
    (ha : ∀ run ∈ as, run ≠ [] ∧ Comparable cs run) (hb : ∀ run ∈ bs, run ≠ [] ∧ Comparable cs run) :
    compareRuns as bs = .ok (List.compareLex (runOrder cs) as bs) := by
  -- a run that is missing comes before every run
  have hfirst {run : List Char} (hne : run ≠ []) : compareRun [] run = .ok .lt := by
    obtain ⟨c, rest, rfl⟩ := List.exists_cons_of_ne_nil hne
    rfl
  induction as generalizing bs with
  | nil =>
    cases bs with
    | nil => rw [compareRuns, List.compareLex_nil_nil]
    | cons b bs =>
      rw [compareRuns, hfirst (hb b List.mem_cons_self).1, List.compareLex_nil_cons]
      rfl
  | cons a as ih =>
    cases bs with
    | nil =>
      rw [compareRuns, compareRun_swap (hfirst (ha a List.mem_cons_self).1), List.compareLex_cons_nil]
      rfl
    | cons b bs =>
      rw [compareRuns, compareRun_eq hmixed (ha a List.mem_cons_self).2 (hb b List.mem_cons_self).2,
        List.compareLex_cons_cons, ih (fun run h => ha run (List.mem_cons_of_mem a h)) fun run h =>
          hb run (List.mem_cons_of_mem b h)]
      show (match runOrder cs a b with
        | .eq => Except.ok (List.compareLex (runOrder cs) as bs)
        | r => .ok r) = _
      cases runOrder cs a b <;> rfl

/-- Among characters that are unmixed, natural order is the lexicographic order of runs. -/
theorem compareNatural_eq (hmixed : Unmixed cs) (ha : a ⊆ cs) (hb : b ⊆ cs)
    (hra : readable a = true) (hrb : readable b = true) :
    compareNatural a b = .ok (List.compareLex (runOrder cs) (digitRuns a) (digitRuns b)) :=
  compareRuns_eq hmixed (fun _ h => ⟨(isRun_of_mem h).ne_nil, comparable_of_mem ha hra h⟩)
    fun _ h => ⟨(isRun_of_mem h).ne_nil, comparable_of_mem hb hrb h⟩

end Keys

/-! ## Natural order -/

/-- Natural order lets the first of two texts come first. -/
def NaturallyPrecedes (a b : List Char) : Prop := ∃ r, compareNatural a b = .ok r ∧ r.isLE = true

/-- Texts whose decimal digits are the ASCII digits are unmixed. -/
theorem unmixed_of_ascii {cs : List Char}
    (h : ∀ c ∈ cs, Text.isDecimal c = true → c.toNat < 128) : Unmixed cs := by
  have hascii {c : Char} (hc : c.toNat < 128) :
      Text.isDecimal c = true ↔ 48 ≤ c.toNat ∧ c.toNat ≤ 57 := by
    simp only [Text.isDecimal, Text.decimalValue?, if_pos hc, Option.isSome_ite, Bool.and_eq_true,
      decide_eq_true_eq]
  rintro x hx y hy z hz hdx hdy hdz ⟨hxz, hzy⟩
  have hy128 := h y hy hdy
  have hxs := (hascii (h x hx hdx)).mp hdx
  have hys := (hascii hy128).mp hdy
  rw [(hascii (by omega)).mpr (by omega)] at hdz
  cases hdz

/-- Comparing the other way around gives the opposite answer. A text compares equal to itself exactly if
it is readable, and readable texts can always be compared. Natural order is transitive on readable texts
between whose decimal digits no other character of theirs stands. -/
theorem compareNatural_preorder (a b c : List Char) :
    (∀ r, compareNatural a b = .ok r → compareNatural b a = .ok r.swap) ∧
    (compareNatural a a = .ok .eq ↔ readable a = true) ∧
    (readable a = true → readable b = true → ∃ r, compareNatural a b = .ok r) ∧
    (readable a = true → readable b = true → readable c = true → Unmixed (a ++ b ++ c) →
      NaturallyPrecedes a b → NaturallyPrecedes b c → NaturallyPrecedes a c) := by
  refine ⟨fun _ => compareNatural_swap, compareNatural_self_iff a, compareNatural_ok,
    fun hra hrb hrc hmixed ⟨r, hab, hr⟩ ⟨q, hbc, hq⟩ => ?_⟩
  have ha : a ⊆ a ++ b ++ c := fun _ h => List.mem_append_left c (List.mem_append_left b h)
  have hb : b ⊆ a ++ b ++ c := fun _ h => List.mem_append_left c (List.mem_append_right a h)
  have hc : c ⊆ a ++ b ++ c := fun _ h => List.mem_append_right _ h
  rw [compareNatural_eq hmixed ha hb hra hrb] at hab
  rw [compareNatural_eq hmixed hb hc hrb hrc] at hbc
  cases hab
  cases hbc
  exact ⟨_, compareNatural_eq hmixed ha hc hra hrc, TransCmp.isLE_trans hr hq⟩

/-- Numbers inside names by value, an upper index among other characters, and a name that ends early. -/
theorem compareNatural_preorder_indexed :
    let a := "item9.".toList
    let b := "item010".toList
    let c := "item10²x".toList
    readable a = true ∧ readable b = true ∧ readable c = true ∧ Unmixed (a ++ b ++ c) ∧
      compareNatural a b = .ok .lt ∧ compareNatural b c = .ok .lt ∧ NaturallyPrecedes a c := by
  intro a b c
  have hmixed : Unmixed (a ++ b ++ c) := unmixed_of_ascii (by decide)
  have hra : readable a = true := by decide
  have hrb : readable b = true := by decide
  have hrc : readable c = true := by decide
  have hab : compareNatural a b = .ok .lt := by
    rw [compareNatural_eq hmixed (by decide) (by decide) hra hrb]
    decide
  have hbc : compareNatural b c = .ok .lt := by
    rw [compareNatural_eq hmixed (by decide) (by decide) hrb hrc]
    decide
  obtain ⟨-, -, -, htrans⟩ := compareNatural_preorder a b c
  exact ⟨hra, hrb, hrc, hmixed, hab, hbc, htrans hra hrb hrc hmixed ⟨_, hab, rfl⟩ ⟨_, hbc, rfl⟩⟩

/-- A superscript two is a digit character but no number. Nine comes before a letter and the letter before
the three of another script, by their code points, but that three comes before nine, by value. -/
theorem compareNatural_goes_around :
    compareNatural ['²'] ['²'] = .error (.notANumber (.noInteger 10 "²")) ∧
      compareNatural ['9'] ['a'] = .ok .lt ∧ compareNatural ['a'] ['٣'] = .ok .lt ∧
      compareNatural ['٣'] ['9'] = .ok .lt := by
  cbv

end MemberOrder.Order
