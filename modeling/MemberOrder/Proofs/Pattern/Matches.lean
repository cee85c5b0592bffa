/-
  What it means for a pattern to match, apart from the order in which the matcher tries things.

  `Matches t stop p i j marks` says that `p` can cover the text from `i` up to `j` and mark
  `marks` on the way. Whatever the matcher returns is such a match (`run_matches`); the converse,
  that it returns the preferred one, is not stated here. A match lies between its ends, and so
  does every piece it marks (`Matches.bounds`). `Within` is about the characters a pattern covers.
-/
import MemberOrder.Pattern.Basic
import MemberOrder.Proofs.Text.Offsets

namespace MemberOrder.Pattern

/-- Any number of rounds of a relation, each of which moves on. -/
inductive Rounds (round : Nat → Nat → Captures → Prop) : Nat → Nat → Captures → Prop
  | done (i : Nat) : Rounds round i i []
  | more {i j k : Nat} {first others : Captures} :
      round i j first → i < j → Rounds round j k others → Rounds round i k (others ++ first)

/-- `p` can match the text from `i` up to `j` and mark `marks`. -/
def Matches (t : Text) (stop : Nat) : Pattern → (i j : Nat) → Captures → Prop
  | .empty, i, j, marks => j = i ∧ marks = []
  | .one test, i, j, marks => i < stop ∧ t.testAt i test = true ∧ j = i + 1 ∧ marks = []
  | .span test, i, j, marks | .fewest test, i, j, marks =>
    i ≤ j ∧ (j ≤ stop ∨ j = i) ∧ (∀ x, i ≤ x → x < j → t.testAt x test = true) ∧ marks = []
  | .seq p q, i, j, marks =>
    ∃ middle a b, Matches t stop p i middle a ∧ Matches t stop q middle j b ∧ marks = b ++ a
  | .either p q, i, j, marks => Matches t stop p i j marks ∨ Matches t stop q i j marks
  | .many p, i, j, marks => Rounds (Matches t stop p) i j marks
  | .mark label p, i, j, marks => ∃ inner, Matches t stop p i j inner ∧ marks = (label, i, j) :: inner
  | .ahead p, i, j, marks => (∃ k found, Matches t stop p i k found) ∧ j = i ∧ marks = []
  | .notAhead _, i, j, marks => j = i ∧ marks = []
  | .place test, i, j, marks => test t stop i = true ∧ j = i ∧ marks = []

/-! ## The matcher finds matches -/

theorem testAt_of_runLength {t : Text} {test : Char → Bool} {fuel i x : Nat} (hi : i ≤ x)
    (hx : x < i + runLength t test fuel i) : t.testAt x test = true := by
  induction fuel generalizing i with
  | zero => simp [runLength] at hx; omega
  | succ fuel ih =>
    simp only [runLength] at hx
    split at hx
    · rename_i hc
      rcases Nat.eq_or_lt_of_le hi with rfl | hi
      · exact hc
      · exact ih (Nat.succ_le_of_lt hi) (by simp only [Nat.succ_eq_add_one]; omega)
    · omega

theorem runLength_le (t : Text) (test : Char → Bool) (fuel i : Nat) :
    runLength t test fuel i ≤ fuel := by
  induction fuel generalizing i with
  | zero => exact Nat.le_refl 0
  | succ fuel ih =>
    have := ih (i + 1)
    simp only [runLength]
    split <;> omega

theorem downFrom_some {k : Nat → Option Ending} {i count : Nat} {r : Ending}
    (h : downFrom k i count = some r) : ∃ j, i ≤ j ∧ j ≤ i + count ∧ k j = some r := by
  induction count with
  | zero => exact ⟨i, Nat.le_refl i, Nat.le_refl i, h⟩
  | succ count ih =>
    simp only [downFrom] at h
    split at h
    · rename_i r' hk
      cases h
      exact ⟨i + count + 1, by omega, by omega, hk⟩
    · obtain ⟨j, h1, h2, h3⟩ := ih h
      exact ⟨j, h1, by omega, h3⟩

theorem upFrom_some {k : Nat → Option Ending} {count i : Nat} {r : Ending}
    (h : upFrom k count i = some r) : ∃ j, i ≤ j ∧ j ≤ i + count ∧ k j = some r := by
  induction count generalizing i with
  | zero => exact ⟨i, Nat.le_refl i, Nat.le_refl i, h⟩
  | succ count ih =>
    simp only [upFrom] at h
    split at h
    · rename_i r' hk
      cases h
      exact ⟨i, Nat.le_refl i, by omega, hk⟩
    · obtain ⟨j, h1, h2, h3⟩ := ih h
      exact ⟨j, by omega, by omega, h3⟩

/-- A run of characters that pass a test is a match of `span` and of `fewest`. -/
theorem matches_run {t : Text} {stop i j : Nat} {test : Char → Bool} (hi : i ≤ j)
    (hj : j ≤ i + runLength t test (stop - i) i) :
    i ≤ j ∧ (j ≤ stop ∨ j = i) ∧ ∀ x, i ≤ x → x < j → t.testAt x test = true := by
  have hlen := runLength_le t test (stop - i) i
  refine ⟨hi, by omega, ?_⟩
  intro x h1 h2
  have hx : x < i + runLength t test (stop - i) i := by omega
  exact testAt_of_runLength h1 hx

theorem repeatFrom_rounds {p : Pattern} {t : Text} {stop : Nat}
    (hp : ∀ i marks k r, run t stop p i marks k = some r →
      ∃ j new, Matches t stop p i j new ∧ k j (new ++ marks) = some r)
    {k : Nat → Captures → Option Ending} {fuel i : Nat} {marks : Captures} {r : Ending}
    (h : repeatFrom (fun i marks k => run t stop p i marks k) k fuel i marks = some r) :
    ∃ j new, Rounds (Matches t stop p) i j new ∧ k j (new ++ marks) = some r := by
  induction fuel generalizing i marks with
  | zero => exact ⟨i, [], .done i, h⟩
  | succ fuel ih =>
    simp only [repeatFrom] at h
    split at h
    · rename_i r' hround
      cases h
      obtain ⟨j, first, hfirst, hrest⟩ := hp _ _ _ _ hround
      split at hrest
      · rename_i hij
        obtain ⟨j', others, hothers, hk⟩ := ih hrest
        exact ⟨j', others ++ first, .more hfirst hij hothers, by rw [List.append_assoc]; exact hk⟩
      · cases hrest
    · exact ⟨i, [], .done i, h⟩

/-- What the matcher accepts is a match that its continuation accepts. -/
theorem run_matches {t : Text} {stop : Nat} (p : Pattern) (i : Nat) (marks : Captures)
    (k : Nat → Captures → Option Ending) (r : Ending) (h : run t stop p i marks k = some r) :
    ∃ j new, Matches t stop p i j new ∧ k j (new ++ marks) = some r := by
  induction p generalizing i marks k r with
  | empty => exact ⟨i, [], ⟨rfl, rfl⟩, h⟩
  | one test =>
    simp only [run] at h
    split at h
    · rename_i hc
      rw [Bool.and_eq_true, decide_eq_true_eq] at hc
      exact ⟨i + 1, [], ⟨hc.1, hc.2, rfl, rfl⟩, h⟩
    · cases h
  | span test =>
    obtain ⟨j, h1, h2, h3⟩ := downFrom_some h
    obtain ⟨m1, m2, m3⟩ := matches_run h1 h2
    exact ⟨j, [], ⟨m1, m2, m3, rfl⟩, h3⟩
  | fewest test =>
    obtain ⟨j, h1, h2, h3⟩ := upFrom_some h
    obtain ⟨m1, m2, m3⟩ := matches_run h1 h2
    exact ⟨j, [], ⟨m1, m2, m3, rfl⟩, h3⟩
  | seq p q ihp ihq =>
    obtain ⟨middle, a, ha, hq⟩ := ihp _ _ _ _ h
    obtain ⟨j, b, hb, hk⟩ := ihq _ _ _ _ hq
    exact ⟨j, b ++ a, ⟨middle, a, b, ha, hb, rfl⟩, by rw [List.append_assoc]; exact hk⟩
  | either p q ihp ihq =>
    simp only [run] at h
    split at h
    · rename_i r' hp
      cases h
      obtain ⟨j, a, ha, hk⟩ := ihp _ _ _ _ hp
      exact ⟨j, a, Or.inl ha, hk⟩
    · obtain ⟨j, b, hb, hk⟩ := ihq _ _ _ _ h
      exact ⟨j, b, Or.inr hb, hk⟩
  | many p ih => exact repeatFrom_rounds ih h
  | mark label p ih =>
    obtain ⟨j, a, ha, hk⟩ := ih _ _ _ _ h
    exact ⟨j, (label, i, j) :: a, ⟨a, ha, rfl⟩, hk⟩
  | ahead p ih =>
    simp only [run] at h
    split at h
    · rename_i hc
      obtain ⟨r', hr'⟩ := Option.isSome_iff_exists.mp hc
      obtain ⟨j, a, ha, -⟩ := ih _ _ _ _ hr'
      exact ⟨i, [], ⟨⟨j, a, ha⟩, rfl, rfl⟩, h⟩
    · cases h
  | notAhead p _ =>
    simp only [run] at h
    split at h
    · cases h
    · exact ⟨i, [], ⟨rfl, rfl⟩, h⟩
  | place test =>
    simp only [run] at h
    split at h
    · rename_i hc
      exact ⟨i, [], ⟨hc, rfl, rfl⟩, h⟩
    · cases h

theorem matchAt?_matches {p : Pattern} {t : Text} {i stop : Nat} {m : Found}
    (h : p.matchAt? t i stop = some m) :
    m.start = i ∧ Matches t stop p i m.stop m.marks := by
  obtain ⟨⟨j, marks⟩, hr, rfl⟩ := Option.map_eq_some_iff.mp h
  obtain ⟨j', new, hm, hk⟩ := run_matches p i [] _ _ hr
  cases hk
  exact ⟨rfl, by simpa using hm⟩

theorem fullMatch?_matches {p : Pattern} {t : Text} {i stop : Nat} {m : Found}
    (h : p.fullMatch? t i stop = some m) :
    m.start = i ∧ m.stop = stop ∧ Matches t stop p i m.stop m.marks := by
  obtain ⟨⟨j, marks⟩, hr, rfl⟩ := Option.map_eq_some_iff.mp h
  obtain ⟨j', new, hm, hk⟩ := run_matches p i [] _ _ hr
  split at hk
  · rename_i hj
    cases hk
    exact ⟨rfl, by simpa using hj, by simpa using hm⟩
  · cases hk

theorem searchFrom_matches {p : Pattern} {t : Text} {stop fuel i : Nat} {m : Found}
    (h : p.searchFrom t stop fuel i = some m) :
    i ≤ m.start ∧ m.start ≤ i + fuel ∧ Matches t stop p m.start m.stop m.marks := by
  induction fuel generalizing i with
  | zero =>
    obtain ⟨h1, h2⟩ := matchAt?_matches h
    rw [h1]
    exact ⟨Nat.le_refl i, Nat.le_refl i, h2⟩
  | succ fuel ih =>
    simp only [searchFrom] at h
    split at h
    · rename_i m' hm
      cases h
      obtain ⟨h1, h2⟩ := matchAt?_matches hm
      rw [h1]
      exact ⟨Nat.le_refl i, by omega, h2⟩
    · obtain ⟨h1, h2, h3⟩ := ih h
      exact ⟨by omega, by omega, h3⟩

theorem search?_matches {p : Pattern} {t : Text} {i stop : Nat} {m : Found}
    (h : p.search? t i stop = some m) :
    i ≤ m.start ∧ m.start ≤ stop ∧ Matches t stop p m.start m.stop m.marks := by
  unfold search? at h
  split at h
  · cases h
  · obtain ⟨h1, h2, h3⟩ := searchFrom_matches h
    exact ⟨h1, by omega, h3⟩

/-! ## Where matches lie -/

/-- A match lies between its ends, and so does every piece that it marks. -/
theorem Matches.bounds {t : Text} {stop : Nat} {p : Pattern} {i j : Nat} {marks : Captures}
    (h : Matches t stop p i j marks) :
    i ≤ j ∧ (i ≤ stop → j ≤ stop) ∧ ∀ x ∈ marks, i ≤ x.2.1 ∧ x.2.1 ≤ x.2.2 ∧ x.2.2 ≤ j := by
  induction p generalizing i j marks with
  | empty =>
    obtain ⟨rfl, rfl⟩ := h
    simp
  | one test =>
    obtain ⟨h1, -, rfl, rfl⟩ := h
    exact ⟨by omega, fun _ => by omega, by simp⟩
  | span test | fewest test =>
    obtain ⟨h1, h2, -, rfl⟩ := h
    exact ⟨h1, fun _ => by omega, by simp⟩
  | seq p q ihp ihq =>
    obtain ⟨middle, a, b, ha, hb, rfl⟩ := h
    obtain ⟨a1, a2, a3⟩ := ihp ha
    obtain ⟨b1, b2, b3⟩ := ihq hb
    refine ⟨by omega, fun h => b2 (a2 h), ?_⟩
    intro x hx
    rcases List.mem_append.mp hx with hx | hx
    · have := b3 x hx
      omega
    · have := a3 x hx
      omega
  | either p q ihp ihq =>
    rcases h with h | h
    · exact ihp h
    · exact ihq h
  | many p ih =>
    induction h with
    | done i => simp
    | more hfirst hlt _ ihrest =>
      obtain ⟨a1, a2, a3⟩ := ih hfirst
      obtain ⟨b1, b2, b3⟩ := ihrest
      refine ⟨by omega, fun h => b2 (a2 h), ?_⟩
      intro x hx
      rcases List.mem_append.mp hx with hx | hx
      · have := b3 x hx
        omega
      · have := a3 x hx
        omega
  | mark label p ih =>
    obtain ⟨inner, hin, rfl⟩ := h
    obtain ⟨a1, a2, a3⟩ := ih hin
    refine ⟨a1, a2, ?_⟩
    intro x hx
    rcases List.mem_cons.mp hx with rfl | hx
    · exact ⟨Nat.le_refl i, a1, Nat.le_refl j⟩
    · exact a3 x hx
  | ahead p ih =>
    obtain ⟨-, rfl, rfl⟩ := h
    simp
  | notAhead p ih =>
    obtain ⟨rfl, rfl⟩ := h
    simp
  | place test =>
    obtain ⟨-, rfl, rfl⟩ := h
    simp

/-- Whether a pattern marks nothing. -/
def isSilent : Pattern → Bool
  | .seq p q | .either p q => p.isSilent && q.isSilent
  | .many p => p.isSilent
  | .mark _ _ => false
  | _ => true

theorem Matches.marks_eq_nil {t : Text} {stop : Nat} {p : Pattern} {i j : Nat} {marks : Captures}
    (h : Matches t stop p i j marks) (hp : p.isSilent = true) : marks = [] := by
  induction p generalizing i j marks with
  | empty => exact h.2
  | one test => exact h.2.2.2
  | span test | fewest test => exact h.2.2.2
  | seq p q ihp ihq =>
    obtain ⟨middle, a, b, ha, hb, rfl⟩ := h
    rw [isSilent, Bool.and_eq_true] at hp
    rw [ihp ha hp.1, ihq hb hp.2]
    rfl
  | either p q ihp ihq =>
    rw [isSilent, Bool.and_eq_true] at hp
    rcases h with h | h
    · exact ihp h hp.1
    · exact ihq h hp.2
  | many p ih =>
    induction h with
    | done i => rfl
    | more hfirst hlt _ ihrest =>
      rw [ih hfirst hp, ihrest]
      rfl
  | mark label p ih => cases hp
  | ahead p ih => exact h.2.2
  | notAhead p ih => exact h.2
  | place test => exact h.2.2

theorem findFrom_matches {p : Pattern} {t : Text} {fuel i : Nat} {m : Found}
    (h : m ∈ p.findFrom t fuel i) :
    i ≤ m.start ∧ m.start ≤ t.size ∧ Matches t t.size p m.start m.stop m.marks := by
  induction fuel generalizing i with
  | zero => simp [findFrom] at h
  | succ fuel ih =>
    simp only [findFrom] at h
    split at h
    · cases h
    · rename_i m' hm
      have hm' := search?_matches hm
      rcases List.mem_cons.mp h with rfl | h
      · exact hm'
      · obtain ⟨h1, h2, h3⟩ := ih h
        refine ⟨?_, h2, h3⟩
        have hle := hm'.2.2.bounds.1
        split at h1 <;> omega

theorem mem_of_piece? {m : Found} {label : String} {piece : Nat × Nat}
    (h : m.piece? label = some piece) : (label, piece) ∈ m.marks := by
  unfold Found.piece? at h
  generalize m.marks = marks at h
  induction marks with
  | nil => simp at h
  | cons x rest ih =>
    obtain ⟨l, p⟩ := x
    rw [List.lookup_cons] at h
    split at h
    · rename_i heq
      cases h
      rw [beq_iff_eq] at heq
      rw [heq]
      exact List.mem_cons_self
    · exact List.mem_cons_of_mem _ (ih h)

/-- A labelled piece starts inside its match. -/
theorem Matches.startOf_bounds {t : Text} {stop : Nat} {p : Pattern} {m : Found}
    (h : Matches t stop p m.start m.stop m.marks) (label : String) :
    m.start ≤ m.startOf label ∧ m.startOf label ≤ m.stop := by
  obtain ⟨h1, -, h3⟩ := h.bounds
  unfold Found.startOf
  cases hp : m.piece? label with
  | none => exact ⟨Nat.le_refl _, h1⟩
  | some piece =>
    obtain ⟨b1, b2, b3⟩ := h3 _ (mem_of_piece? hp)
    exact ⟨b1, Nat.le_trans b2 b3⟩

/-! ## The characters of matches -/

/-- Every character that `p` covers passes a test. -/
def Within (test : Char → Bool) (p : Pattern) : Prop :=
  ∀ (t : Text) (stop i j : Nat) (marks : Captures), Matches t stop p i j marks →
    ∀ x, i ≤ x → x < j → t.testAt x test = true

theorem testAt_mono {t : Text} {x : Nat} {f g : Char → Bool} (hfg : ∀ c, f c = true → g c = true)
    (h : t.testAt x f = true) : t.testAt x g = true := by
  obtain ⟨c, hc, hf⟩ := Text.testAt_iff.mp h
  exact Text.testAt_iff.mpr ⟨c, hc, hfg c hf⟩

section Within

variable {test f : Char → Bool} {p q : Pattern}

theorem within_empty : Within test .empty := by
  rintro t stop i j marks ⟨rfl, -⟩ x h1 h2
  omega

theorem within_one (h : ∀ c, f c = true → test c = true) : Within test (.one f) := by
  rintro t stop i j marks ⟨-, hf, rfl, -⟩ x h1 h2
  obtain rfl : x = i := by omega
  exact testAt_mono h hf

theorem within_span (h : ∀ c, f c = true → test c = true) : Within test (.span f) := by
  rintro t stop i j marks ⟨-, -, hf, -⟩ x h1 h2
  exact testAt_mono h (hf x h1 h2)

theorem within_seq (hp : Within test p) (hq : Within test q) : Within test (.seq p q) := by
  rintro t stop i j marks ⟨middle, a, b, ha, hb, -⟩ x h1 h2
  by_cases hx : x < middle
  · exact hp t stop i middle a ha x h1 hx
  · exact hq t stop middle j b hb x (by omega) h2

theorem within_either (hp : Within test p) (hq : Within test q) : Within test (.either p q) := by
  rintro t stop i j marks (h | h)
  · exact hp t stop i j marks h
  · exact hq t stop i j marks h

theorem within_mark (label : String) (hp : Within test p) : Within test (.mark label p) := by
  rintro t stop i j marks ⟨inner, h, -⟩
  exact hp t stop i j inner h

theorem within_optional (hp : Within test p) : Within test (.optional p) := within_either hp within_empty

theorem within_many (hp : Within test p) : Within test (.many p) := by
  intro t stop i j marks h
  induction h with
  | done i =>
    intro x h1 h2
    omega
  | more hfirst hij hrest ih =>
    rename_i i middle j first others
    intro x h1 h2
    by_cases hx : x < middle
    · exact hp t stop i middle first hfirst x h1 hx
    · exact ih x (by omega) h2

theorem within_choice {ps : List Pattern} (h : ∀ p ∈ ps, Within test p) : Within test (choice ps) := by
  induction ps with
  | nil =>
    rintro t stop i j marks ⟨hno, -⟩
    cases hno
  | cons p rest ih =>
    have hp := h p List.mem_cons_self
    cases rest with
    | nil => exact hp
    | cons q more => exact within_either hp (ih fun r hr => h r (List.mem_cons_of_mem p hr))

theorem within_chars {cs : List Char} (h : ∀ d ∈ cs, test d = true) : Within test (.chars cs) := by
  have hchar : ∀ d, test d = true → Within test (.char d) :=
    fun d hd => within_one fun c hc => by rwa [beq_iff_eq.mp hc]
  induction cs with
  | nil => exact within_empty
  | cons c rest ih =>
    have hrest := ih fun d hd => h d (List.mem_cons_of_mem c hd)
    have hc := hchar c (h c List.mem_cons_self)
    cases rest with
    | nil => exact hc
    | cons d more => exact within_seq hc hrest

end Within

/-- Every match of `p` ends with a character that passes a test. -/
def EndsIn (test : Char → Bool) (p : Pattern) : Prop :=
  ∀ (t : Text) (stop i j : Nat) (marks : Captures), Matches t stop p i j marks →
    i < j ∧ t.testAt (j - 1) test = true

theorem endsIn_one (test : Char → Bool) : EndsIn test (.one test) := by
  rintro t stop i j marks ⟨-, hf, rfl, -⟩
  exact ⟨by omega, hf⟩

theorem endsIn_seq {test : Char → Bool} {q : Pattern} (p : Pattern) (hq : EndsIn test q) :
    EndsIn test (.seq p q) := by
  rintro t stop i j marks ⟨middle, a, b, ha, hb, -⟩
  obtain ⟨h1, h2⟩ := hq t stop middle j b hb
  have := ha.bounds.1
  exact ⟨by omega, h2⟩

/-- Every match of `p` covers something. -/
def Consumes (p : Pattern) : Prop :=
  ∀ (t : Text) (stop i j : Nat) (marks : Captures), Matches t stop p i j marks → i < j

theorem consumes_one (test : Char → Bool) : Consumes (.one test) := by
  rintro t stop i j marks ⟨-, -, rfl, -⟩
  exact Nat.lt_succ_self i

theorem consumes_seq_left {p : Pattern} (hp : Consumes p) (q : Pattern) : Consumes (.seq p q) := by
  rintro t stop i j marks ⟨middle, a, b, ha, hb, -⟩
  exact Nat.lt_of_lt_of_le (hp _ _ _ _ _ ha) hb.bounds.1

theorem consumes_seq_right (p : Pattern) {q : Pattern} (hq : Consumes q) : Consumes (.seq p q) := by
  rintro t stop i j marks ⟨middle, a, b, ha, hb, -⟩
  exact Nat.lt_of_le_of_lt ha.bounds.1 (hq _ _ _ _ _ hb)

theorem consumes_either {p q : Pattern} (hp : Consumes p) (hq : Consumes q) :
    Consumes (.either p q) := by
  rintro t stop i j marks (h | h)
  · exact hp _ _ _ _ _ h
  · exact hq _ _ _ _ _ h

/-! ## The first and the last character -/

/-- Every match of `p` starts with a character that passes a test. -/
def StartsIn (test : Char → Bool) (p : Pattern) : Prop :=
  ∀ (t : Text) (stop i j : Nat) (marks : Captures), Matches t stop p i j marks →
    i < j ∧ t.testAt i test = true

section StartsIn

variable {test : Char → Bool} {p q : Pattern}

theorem startsIn_one (test : Char → Bool) : StartsIn test (.one test) := by
  rintro t stop i j marks ⟨-, hf, rfl, -⟩
  exact ⟨Nat.lt_succ_self i, hf⟩

theorem startsIn_seq (hp : StartsIn test p) (q : Pattern) : StartsIn test (.seq p q) := by
  rintro t stop i j marks ⟨middle, a, b, ha, hb, -⟩
  obtain ⟨h1, h2⟩ := hp t stop i middle a ha
  exact ⟨Nat.lt_of_lt_of_le h1 hb.bounds.1, h2⟩

theorem startsIn_either (hp : StartsIn test p) (hq : StartsIn test q) :
    StartsIn test (.either p q) := by
  rintro t stop i j marks (h | h)
  · exact hp t stop i j marks h
  · exact hq t stop i j marks h

theorem startsIn_mark (label : String) (hp : StartsIn test p) : StartsIn test (.mark label p) := by
  rintro t stop i j marks ⟨inner, h, -⟩
  exact hp t stop i j inner h

/-- What may be missing in front starts a match or leaves it to the rest. -/
theorem startsIn_optional (hp : StartsIn test p) (hq : StartsIn test q) :
    StartsIn test (.seq (.optional p) q) := by
  rintro t stop i j marks ⟨middle, a, b, ha | ⟨rfl, -⟩, hb, -⟩
  · obtain ⟨h1, h2⟩ := hp t stop i middle a ha
    exact ⟨Nat.lt_of_lt_of_le h1 hb.bounds.1, h2⟩
  · exact hq t stop middle j b hb

theorem startsIn_place (at_ : Text → Nat → Nat → Bool) (hq : StartsIn test q) :
    StartsIn test (.seq (.place at_) q) := by
  rintro t stop i j marks ⟨middle, a, b, ⟨-, rfl, -⟩, hb, -⟩
  exact hq t stop middle j b hb

theorem startsIn_word {c : Char} {rest : List Char} {s : String} (hs : s.toList = c :: rest)
    (hc : test c = true) : StartsIn test (.word s) := by
  have hchar : StartsIn test (.char c) := by
    intro t stop i j marks h
    obtain ⟨h1, h2⟩ := startsIn_one (· == c) t stop i j marks h
    exact ⟨h1, testAt_mono (fun d hd => by rwa [beq_iff_eq.mp hd]) h2⟩
  rw [word, hs]
  cases rest with
  | nil => exact hchar
  | cons d more => exact startsIn_seq hchar _

end StartsIn

/-- A match of `p` that covers something ends with a character that passes a test. -/
def StopsWith (test : Char → Bool) (p : Pattern) : Prop :=
  ∀ (t : Text) (stop i j : Nat) (marks : Captures), Matches t stop p i j marks → i < j →
    t.testAt (j - 1) test = true

section StopsWith

variable {test : Char → Bool} {p q : Pattern}

theorem Within.stopsWith (h : Within test p) : StopsWith test p :=
  fun t stop i j marks hm hlt => h t stop i j marks hm (j - 1) (by omega) (by omega)

theorem stopsWith_seq (hp : StopsWith test p) (hq : StopsWith test q) :
    StopsWith test (.seq p q) := by
  rintro t stop i j marks ⟨middle, a, b, ha, hb, -⟩ hlt
  rcases Nat.eq_or_lt_of_le hb.bounds.1 with rfl | hmiddle
  · exact hp t stop i middle a ha hlt
  · exact hq t stop middle j b hb hmiddle

theorem stopsWith_either (hp : StopsWith test p) (hq : StopsWith test q) :
    StopsWith test (.either p q) := by
  rintro t stop i j marks (h | h) hlt
  · exact hp t stop i j marks h hlt
  · exact hq t stop i j marks h hlt

theorem stopsWith_many (hp : StopsWith test p) : StopsWith test (.many p) := by
  rintro t stop i j marks h hlt
  induction h with
  | done i => omega
  | more hfirst hij hrest ih =>
    rename_i i middle j first others
    by_cases hmore : middle < j
    · exact ih hmore
    · -- nothing comes after this round
      have hle : middle ≤ j := Matches.bounds (p := .many p) hrest |>.1
      obtain rfl : middle = j := by omega
      exact hp t stop i middle first hfirst hij

end StopsWith

end MemberOrder.Pattern
