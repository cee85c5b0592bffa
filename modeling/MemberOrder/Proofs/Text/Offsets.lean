/-
  What the offset functions of a text return.

  `slice` is a contiguous piece and neighbouring slices join. `nextCode` and `prevCode` pass
  over white space only, `nextCode` stops at the first offset that holds none, and `prevCode`
  just past the last one. `find?` returns the first place where a needle stands. What stands at an
  offset is cut from the text by a slice.
-/
import MemberOrder.Text.Basic

/-!
## The lines of a text

The lines of a text are its pieces between line feeds; none holds one. Joined, they are the text
(`join_lines`), and pieces without line feeds are the lines of what they are joined to
(`lines_join`).
-/

namespace MemberOrder.Text

theorem splitAt_ne_nil (isSeparator : Char → Bool) (cs : List Char) :
    splitAt isSeparator cs ≠ [] := by
  cases cs with
  | nil => simp [splitAt]
  | cons c rest =>
    simp only [splitAt]
    split
    · simp
    · split <;> simp

/-- The lines of a text, joined, are the text. -/
theorem join_lines (cs : List Char) : join ['\n'] (lines cs) = cs := by
  unfold lines
  induction cs with
  | nil => rfl
  | cons c rest ih =>
    obtain ⟨piece, more, hpieces⟩ := List.exists_cons_of_ne_nil (splitAt_ne_nil (· == '\n') rest)
    simp only [splitAt]
    rw [hpieces] at ih ⊢
    split
    · rename_i hc
      rw [beq_iff_eq] at hc
      rw [join, ih, hc]
      · rfl
      · simp
    · cases more with
      | nil =>
        rw [join] at ih ⊢
        rw [ih]
      | cons next others =>
        rw [join] at ih ⊢
        · rw [← ih]
          rfl
        all_goals simp

example : join ['\n'] (lines "a\n\nb".toList) = "a\n\nb".toList := by cbv

theorem join_cons {x : List Char} {rest : List (List Char)} (h : rest ≠ []) :
    join ['\n'] (x :: rest) = x ++ '\n' :: join ['\n'] rest := by
  cases rest with
  | nil => exact absurd rfl h
  | cons y more => simp only [join, List.append_assoc, List.singleton_append]

theorem not_mem_lines {cs line : List Char} (h : line ∈ lines cs) : '\n' ∉ line := by
  unfold lines at h
  induction cs generalizing line with
  | nil =>
    rw [splitAt, List.mem_singleton] at h
    rw [h]
    exact List.not_mem_nil
  | cons c rest ih =>
    obtain ⟨piece, more, hpieces⟩ := List.exists_cons_of_ne_nil (splitAt_ne_nil (· == '\n') rest)
    rw [splitAt, hpieces] at h
    rw [hpieces] at ih
    split at h
    · rcases List.mem_cons.mp h with rfl | h
      · exact List.not_mem_nil
      · exact ih h
    · rename_i hc
      rcases List.mem_cons.mp h with rfl | h
      · rw [List.mem_cons, not_or]
        exact ⟨fun heq => hc (beq_iff_eq.mpr heq.symm), ih List.mem_cons_self⟩
      · exact ih (List.mem_cons_of_mem piece h)

theorem lines_append {piece rest : List Char} (h : '\n' ∉ piece) :
    lines (piece ++ '\n' :: rest) = piece :: lines rest := by
  unfold lines
  induction piece with
  | nil => rfl
  | cons c more ih =>
    rw [List.mem_cons, not_or] at h
    rw [List.cons_append, splitAt, ih h.2, if_neg (by simpa using Ne.symm h.1)]

theorem lines_of_not_mem {piece : List Char} (h : '\n' ∉ piece) : lines piece = [piece] := by
  unfold lines
  induction piece with
  | nil => rfl
  | cons c more ih =>
    rw [List.mem_cons, not_or] at h
    rw [splitAt, ih h.2, if_neg (by simpa using Ne.symm h.1)]

/-- The pieces that a text is joined of are its lines, if none of them holds a line feed. -/
theorem lines_join {pieces : List (List Char)} (hne : pieces ≠ []) (h : ∀ x ∈ pieces, '\n' ∉ x) :
    lines (join ['\n'] pieces) = pieces := by
  induction pieces with
  | nil => exact absurd rfl hne
  | cons x rest ih =>
    have hx := h x List.mem_cons_self
    cases rest with
    | nil => exact lines_of_not_mem hx
    | cons y more =>
      rw [join_cons (by simp), lines_append hx, ih (by simp) fun z hz =>
        h z (List.mem_cons_of_mem x hz)]

end MemberOrder.Text

/-! ## What the offset functions of a text return -/

namespace MemberOrder.Text

/-! ## Slices -/

theorem slice_eq_take_drop (t : Text) (a b : Nat) :
    t.slice a b = (t.toList.drop a).take (b - a) := by
  unfold slice
  rw [Array.toList_extract, List.extract_eq_take_drop]

theorem length_slice (t : Text) {a b : Nat} (hb : b ≤ t.size) : (t.slice a b).length = b - a := by
  rw [slice_eq_take_drop, List.length_take, List.length_drop, Array.length_toList]
  omega

theorem slice_self (t : Text) {a b : Nat} (h : b ≤ a) : t.slice a b = [] := by
  rw [slice_eq_take_drop, Nat.sub_eq_zero_of_le h, List.take_zero]

/-- Two neighbouring slices are one slice. -/
theorem slice_append (t : Text) {a b c : Nat} (hab : a ≤ b) (hbc : b ≤ c) :
    t.slice a b ++ t.slice b c = t.slice a c := by
  simp only [slice_eq_take_drop]
  have hdrop : t.toList.drop b = (t.toList.drop a).drop (b - a) := by
    rw [List.drop_drop, Nat.add_sub_cancel' hab]
  have hlen : c - a = (b - a) + (c - b) := by omega
  rw [hdrop, hlen, List.take_add]

/-- What stands before a slice, and the slice. -/
theorem take_append_slice (t : Text) {a b : Nat} (hab : a ≤ b) :
    t.toList.take a ++ t.slice a b = t.toList.take b := by
  have htake (n : Nat) : t.toList.take n = t.slice 0 n := by
    rw [slice_eq_take_drop, List.drop_zero, Nat.sub_zero]
  rw [htake, htake, slice_append t (Nat.zero_le a) hab]

/-- A slice, and what stands after it. -/
theorem slice_append_drop (t : Text) {a b : Nat} (hab : a ≤ b) :
    t.slice a b ++ t.toList.drop b = t.toList.drop a := by
  have hdrop : t.toList.drop b = (t.toList.drop a).drop (b - a) := by
    rw [List.drop_drop, Nat.add_sub_cancel' hab]
  rw [slice_eq_take_drop, hdrop, List.take_append_drop]

theorem take_slice (t : Text) {a b c : Nat} (hbc : b ≤ c) :
    (t.slice a c).take (b - a) = t.slice a b := by
  rw [slice_eq_take_drop, slice_eq_take_drop, List.take_take, Nat.min_eq_left (by omega)]

theorem drop_slice (t : Text) {a b c : Nat} (hab : a ≤ b) :
    (t.slice a c).drop (b - a) = t.slice b c := by
  rw [slice_eq_take_drop, slice_eq_take_drop, List.drop_take, List.drop_drop,
    Nat.add_sub_cancel' hab]
  congr 1
  omega

/-- A slice that is made up of two texts, taken apart. -/
theorem slice_eq_append {t : Text} {a b : Nat} {cs ds : List Char} (hb : b ≤ t.size)
    (h : t.slice a b = cs ++ ds) : cs = t.slice a (a + cs.length) ∧ ds = t.slice (a + cs.length) b := by
  have hlength : b - a = cs.length + ds.length := by rw [← length_slice t hb, h, List.length_append]
  by_cases hab : a ≤ b
  · have htake := take_slice t (show a + cs.length ≤ b by omega) (a := a)
    have hdrop := drop_slice t (show a ≤ a + cs.length by omega) (c := b)
    rw [h, Nat.add_sub_cancel_left] at htake hdrop
    rw [List.take_left] at htake
    rw [List.drop_left] at hdrop
    exact ⟨htake, hdrop⟩
  · have hcs : cs = [] := List.eq_nil_of_length_eq_zero (by omega)
    have hds : ds = [] := List.eq_nil_of_length_eq_zero (by omega)
    rw [hcs, hds]
    exact ⟨(slice_self t (Nat.le_refl a)).symm, (slice_self t (by omega)).symm⟩

theorem slice_full (t : Text) : t.slice 0 t.size = t.toList := by
  rw [slice_eq_take_drop, List.drop_zero, Nat.sub_zero, ← Array.length_toList, List.take_length]

theorem getElem?_slice (t : Text) (a b k : Nat) :
    (t.slice a b)[k]? = if a + k < b then t[a + k]? else none := by
  rw [slice_eq_take_drop, List.getElem?_take, List.getElem?_drop, Array.getElem?_toList]
  by_cases h : a + k < b
  · rw [if_pos h, if_pos (by omega)]
  · rw [if_neg h, if_neg (by omega)]

/-- One character of a text. -/
theorem slice_one {t : Text} {x : Nat} {c : Char} (h : t[x]? = some c) :
    t.slice x (x + 1) = [c] := by
  apply List.ext_getElem?
  intro k
  rw [getElem?_slice]
  cases k with
  | zero => simp [h]
  | succ k => simp

theorem mem_slice {t : Text} {a b : Nat} {c : Char} :
    c ∈ t.slice a b ↔ ∃ i, a ≤ i ∧ i < b ∧ t[i]? = some c := by
  rw [List.mem_iff_getElem?]
  constructor
  · rintro ⟨k, hk⟩
    rw [getElem?_slice] at hk
    split at hk
    · exact ⟨a + k, by omega, by omega, hk⟩
    · cases hk
  · rintro ⟨i, ha, hb, hi⟩
    refine ⟨i - a, ?_⟩
    rw [getElem?_slice, Nat.add_sub_cancel' ha, if_pos hb, hi]

/-- The slice of a slice, with offsets counted from where the outer one starts. -/
theorem slice_slice (t : Text) {a b x y : Nat} (hx : a ≤ x) (hy : y ≤ b) :
    Text.slice (t.slice a b).toArray (x - a) (y - a) = t.slice x y := by
  apply List.ext_getElem?
  intro k
  rw [getElem?_slice, getElem?_slice, List.getElem?_toArray, getElem?_slice]
  by_cases h : x + k < y
  · rw [if_pos (by omega), if_pos (by omega), if_pos h]
    congr 1
    omega
  · rw [if_neg (by omega), if_neg h]

/-! ## Single characters -/

theorem testAt_iff {t : Text} {i : Nat} {test : Char → Bool} :
    t.testAt i test = true ↔ ∃ c, t[i]? = some c ∧ test c = true := by
  unfold testAt
  cases t[i]? <;> simp

theorem testAt_of_getElem? {t : Text} {i : Nat} {c : Char} (h : t[i]? = some c)
    (test : Char → Bool) : t.testAt i test = test c := by
  simp [testAt, h]

theorem hasAt_iff {t : Text} {i : Nat} {c : Char} : t.hasAt i c = true ↔ t[i]? = some c := by
  unfold hasAt
  rw [testAt_iff]
  simp

/-! ## The next code -/

theorem skipSpaces_spec (t : Text) (limit fuel i : Nat) :
    i ≤ t.skipSpaces limit fuel i ∧ t.skipSpaces limit fuel i ≤ i + fuel ∧
      (∀ j, i ≤ j → j < t.skipSpaces limit fuel i → t.testAt j isSpace = true) ∧
      (t.skipSpaces limit fuel i < i + fuel → t.skipSpaces limit fuel i < limit →
        t.testAt (t.skipSpaces limit fuel i) isSpace = false) := by
  induction fuel generalizing i with
  | zero =>
    refine ⟨Nat.le_refl i, Nat.le_refl i, ?_, ?_⟩
    · intro j h1 h2
      exact absurd h2 (by simp [skipSpaces]; omega)
    · intro h
      exact absurd h (by simp [skipSpaces])
  | succ fuel ih =>
    obtain ⟨h1, h2, h3, h4⟩ := ih (i + 1)
    simp only [skipSpaces]
    split
    · rename_i hc
      rw [Bool.and_eq_true] at hc
      refine ⟨by omega, by omega, ?_, fun h => h4 (by omega)⟩
      intro j hj hlt
      rcases Nat.eq_or_lt_of_le hj with rfl | hj
      · exact hc.2
      · exact h3 j hj hlt
    · rename_i hc
      refine ⟨Nat.le_refl i, by omega, fun j h h' => by omega, ?_⟩
      intro _ hlim
      simpa [hlim] using hc

theorem le_nextCode (t : Text) (i limit : Nat) : i ≤ t.nextCode i limit :=
  (skipSpaces_spec t limit (limit - i) i).1

theorem nextCode_le (t : Text) {i limit : Nat} (h : i ≤ limit) : t.nextCode i limit ≤ limit := by
  have := (skipSpaces_spec t limit (limit - i) i).2.1
  unfold nextCode
  omega

theorem space_before_nextCode {t : Text} {i limit j : Nat} (hi : i ≤ j)
    (hj : j < t.nextCode i limit) : t.testAt j isSpace = true :=
  (skipSpaces_spec t limit (limit - i) i).2.2.1 j hi hj

theorem code_at_nextCode {t : Text} {i limit : Nat} (h : t.nextCode i limit < limit) :
    t.testAt (t.nextCode i limit) isSpace = false := by
  refine (skipSpaces_spec t limit (limit - i) i).2.2.2 ?_ h
  have := le_nextCode t i limit
  unfold nextCode at *
  omega

/-- The next code is no later than any offset that holds code. -/
theorem nextCode_le_of_code {t : Text} {i limit j : Nat} (hi : i ≤ j)
    (hj : t.testAt j isSpace = false) : t.nextCode i limit ≤ j := by
  refine Nat.le_of_not_lt fun hlt => ?_
  have := space_before_nextCode hi hlt
  simp [hj] at this

/-! ## The previous code -/

theorem prevCode_le (t : Text) (floor i : Nat) : t.prevCode floor i ≤ i := by
  induction i with
  | zero => exact Nat.le_refl 0
  | succ i ih =>
    simp only [prevCode]
    split <;> omega

theorem space_after_prevCode {t : Text} {floor i j : Nat} (h : t.prevCode floor i ≤ j)
    (hj : j < i) : t.testAt j isSpace = true := by
  induction i with
  | zero => omega
  | succ i ih =>
    simp only [prevCode] at h
    split at h
    · rename_i hc
      rw [Bool.and_eq_true] at hc
      rcases Nat.lt_succ_iff_lt_or_eq.mp hj with hlt | rfl
      · exact ih h hlt
      · exact hc.2
    · omega

/-- The previous code ends after every offset, from the floor on, that holds code. -/
theorem lt_prevCode_of_code {t : Text} {floor i j : Nat} (hj : t.testAt j isSpace = false)
    (hi : j < i) : j < t.prevCode floor i := by
  refine Nat.lt_of_not_le fun hle => ?_
  have := space_after_prevCode hle hi
  simp [hj] at this

/-- The character before the end of the previous code is no white space. -/
theorem code_before_prevCode {t : Text} {floor i : Nat} (h : floor < t.prevCode floor i) :
    t.testAt (t.prevCode floor i - 1) isSpace = false := by
  induction i with
  | zero => simp [prevCode] at h
  | succ i ih =>
    simp only [prevCode] at h ⊢
    split at h
    · rename_i hc
      rw [if_pos hc]
      exact ih h
    · rename_i hc
      rw [if_neg hc]
      rw [Bool.and_eq_true, decide_eq_true_eq, not_and, Bool.not_eq_true] at hc
      exact hc h

/-! ## Searching -/

theorem firstFrom_some {test : Nat → Bool} {count i j : Nat}
    (h : firstFrom test count i = some j) :
    i ≤ j ∧ j < i + count ∧ test j = true ∧ ∀ k, i ≤ k → k < j → test k = false := by
  induction count generalizing i with
  | zero => simp [firstFrom] at h
  | succ count ih =>
    simp only [firstFrom] at h
    split at h
    · rename_i hc
      cases h
      exact ⟨Nat.le_refl _, by omega, hc, fun k h1 h2 => by omega⟩
    · rename_i hc
      obtain ⟨h1, h2, h3, h4⟩ := ih h
      refine ⟨by omega, by omega, h3, ?_⟩
      intro k hk hkj
      rcases Nat.eq_or_lt_of_le hk with rfl | hk
      · simpa using hc
      · exact h4 k hk hkj

theorem firstFrom_none {test : Nat → Bool} {count i : Nat} (h : firstFrom test count i = none) :
    ∀ k, i ≤ k → k < i + count → test k = false := by
  induction count generalizing i with
  | zero => intro k h1 h2; omega
  | succ count ih =>
    simp only [firstFrom] at h
    split at h
    · cases h
    · rename_i hc
      intro k hk hlt
      rcases Nat.eq_or_lt_of_le hk with rfl | hk
      · simpa using hc
      · exact ih h k hk (by omega)

theorem find?_some {t : Text} {needle : List Char} {i j : Nat} (h : t.find? needle i = some j) :
    i ≤ j ∧ j < t.size ∧ t.standsAt j needle = true ∧
      ∀ k, i ≤ k → k < j → t.standsAt k needle = false := by
  obtain ⟨h1, h2, h3, h4⟩ := firstFrom_some h
  exact ⟨h1, by omega, h3, h4⟩

theorem find?_none {t : Text} {needle : List Char} {i : Nat} (h : t.find? needle i = none) :
    ∀ k, i ≤ k → k < t.size → t.standsAt k needle = false := by
  intro k hk hlt
  exact firstFrom_none h k hk (by omega)

/-- Where a needle stands for the first time is where it is found. -/
theorem find?_of_first {t : Text} {needle : List Char} {i j : Nat} (hij : i ≤ j) (hj : j < t.size)
    (hstands : t.standsAt j needle = true)
    (hfirst : ∀ k, i ≤ k → k < j → t.standsAt k needle = false) : t.find? needle i = some j := by
  cases hfind : t.find? needle i with
  | none =>
    rw [find?_none hfind j hij hj] at hstands
    cases hstands
  | some x =>
    obtain ⟨hix, -, hx, hbefore⟩ := find?_some hfind
    rcases Nat.lt_trichotomy x j with hlt | rfl | hlt
    · rw [hfirst x hix hlt] at hx
      cases hx
    · rfl
    · rw [hbefore j hij hlt] at hstands
      cases hstands

theorem standsAt_one {t : Text} {i : Nat} {c : Char} :
    t.standsAt i [c] = true ↔ t[i]? = some c := by
  simp [standsAt, hasAt_iff]

theorem standsAt_two {t : Text} {i : Nat} {c d : Char} :
    t.standsAt i [c, d] = true ↔ t[i]? = some c ∧ t[i + 1]? = some d := by
  simp [standsAt, hasAt_iff]

example : (ofString "a*/").standsAt 1 ['*', '/'] = true := by cbv

/-! ## Texts that stand at an offset -/

theorem standsAt_cons {t : Text} {i : Nat} {c : Char} {cs : List Char} :
    t.standsAt i (c :: cs) = true ↔ t[i]? = some c ∧ t.standsAt (i + 1) cs = true := by
  rw [standsAt, Bool.and_eq_true, hasAt_iff]

theorem standsAt_append {t : Text} {i : Nat} {cs ds : List Char} :
    t.standsAt i (cs ++ ds) = true ↔
      t.standsAt i cs = true ∧ t.standsAt (i + cs.length) ds = true := by
  induction cs generalizing i with
  | nil => simp [standsAt]
  | cons c rest ih =>
    have hoffset : i + 1 + rest.length = i + (c :: rest).length := by
      rw [List.length_cons]
      omega
    rw [List.cons_append, standsAt_cons, standsAt_cons, ih, and_assoc, hoffset]

theorem slice_of_standsAt {t : Text} {i : Nat} {cs : List Char} (h : t.standsAt i cs = true) :
    t.slice i (i + cs.length) = cs := by
  induction cs generalizing i with
  | nil => exact slice_self t (Nat.le_refl i)
  | cons c rest ih =>
    obtain ⟨hc, hrest⟩ := standsAt_cons.mp h
    rw [List.length_cons, ← slice_append t (Nat.le_succ i) (by omega), slice_one hc,
      show i + (rest.length + 1) = i + 1 + rest.length by omega, ih hrest]
    rfl

/-- What stands at an offset, and the character after it. -/
theorem slice_succ_of_standsAt {t : Text} {i : Nat} {cs : List Char} {c : Char}
    (h : t.standsAt i cs = true) (hc : t[i + cs.length]? = some c) :
    t.slice i (i + cs.length + 1) = cs ++ [c] := by
  have hboth := slice_of_standsAt (standsAt_append.mpr ⟨h, standsAt_one.mpr hc⟩)
  rwa [List.length_append, List.length_singleton, ← Nat.add_assoc] at hboth

theorem standsAt_slice {t : Text} {i j : Nat} (h : j ≤ t.size) :
    t.standsAt i (t.slice i j) = true := by
  generalize hn : j - i = n
  induction n generalizing i with
  | zero =>
    rw [slice_self t (by omega)]
    rfl
  | succ n ih =>
    have hi : t[i]? = some t[i] := Array.getElem?_eq_getElem (by omega)
    rw [← slice_append t (Nat.le_succ i) (by omega), slice_one hi, List.singleton_append,
      standsAt_cons]
    exact ⟨hi, ih (by omega)⟩

/-- A text stands at its own start. -/
theorem standsAt_toArray (cs : List Char) : Text.standsAt cs.toArray 0 cs = true := by
  have h := standsAt_slice (t := cs.toArray) (i := 0) (Nat.le_refl _)
  rwa [slice_full] at h

/-- What stands at an offset is inside the text. -/
theorem le_size_of_standsAt {t : Text} {i : Nat} {cs : List Char} (h : t.standsAt i cs = true)
    (hi : i ≤ t.size) : i + cs.length ≤ t.size := by
  have hlen := congrArg List.length (slice_of_standsAt h)
  have hsize : t.toList.length = t.size := Array.length_toList
  rw [slice_eq_take_drop, List.length_take, List.length_drop, hsize] at hlen
  omega

theorem lt_size_of_getElem? {t : Text} {i : Nat} {c : Char} (h : t[i]? = some c) : i < t.size :=
  (Array.getElem?_eq_some_iff.mp h).1

/-- A character of what stands at an offset. -/
theorem getElem?_of_standsAt {t : Text} {i : Nat} {cs : List Char} (h : t.standsAt i cs = true)
    {k : Nat} (hk : k < cs.length) : t[i + k]? = cs[k]? := by
  have hget := getElem?_slice t i (i + cs.length) k
  rw [slice_of_standsAt h, if_pos (by omega)] at hget
  exact hget.symm

/-- The next code after white space. -/
theorem nextCode_of_spaces {t : Text} {i limit : Nat} {cs : List Char}
    (h : t.standsAt i cs = true) (hcs : ∀ c ∈ cs, isSpace c = true) (hlimit : i + cs.length ≤ limit)
    (hcode : i + cs.length < limit → t.testAt (i + cs.length) isSpace = false) :
    t.nextCode i limit = i + cs.length := by
  have hle : t.nextCode i limit ≤ i + cs.length := by
    rcases Nat.eq_or_lt_of_le hlimit with heq | hlt
    · rw [heq]
      exact nextCode_le t (by omega)
    · exact nextCode_le_of_code (Nat.le_add_right i _) (hcode hlt)
  have hge := le_nextCode t i limit
  refine Nat.le_antisymm hle (Nat.le_of_not_lt fun hlt => ?_)
  -- an earlier stop would hold white space
  have hspace := code_at_nextCode (show t.nextCode i limit < limit by omega)
  obtain ⟨k, hk⟩ := Nat.exists_eq_add_of_le hge
  have hget := getElem?_of_standsAt h (k := k) (by omega)
  rw [List.getElem?_eq_getElem (by omega)] at hget
  rw [hk, testAt_of_getElem? hget, hcs _ (List.getElem_mem _)] at hspace
  cases hspace

/-!
## What is left of a text

A reader goes through a text by offsets, while a grammar speaks of lists of characters: what a
reader passes over is what stands in front of the remaining text (`standsAt_of_remaining`,
`remaining_nextCode`), and offsets are told apart by what remains (`eq_of_remaining`).
-/

section Remaining

variable {t : Text} {i j : Nat} {c : Char} {cs x : List Char}

/-- The characters of a text from an offset on. -/
def remaining (t : Text) (i : Nat) : List Char := t.toList.drop i

theorem remaining_zero (t : Text) : t.remaining 0 = t.toList := rfl

theorem length_remaining (t : Text) (i : Nat) : (t.remaining i).length = t.size - i := by
  rw [remaining, List.length_drop, Array.length_toList]

theorem remaining_of_getElem? (h : t[i]? = some c) : t.remaining i = c :: t.remaining (i + 1) := by
  obtain ⟨hi, rfl⟩ := Array.getElem?_eq_some_iff.mp h
  exact List.drop_eq_getElem_cons (by rwa [Array.length_toList])

theorem getElem?_of_remaining (h : t.remaining i = c :: cs) :
    t[i]? = some c ∧ t.remaining (i + 1) = cs := by
  have hget : t[i]? = some c := by
    have hfirst := congrArg (·[0]?) h
    simpa [remaining, List.getElem?_drop] using hfirst
  refine ⟨hget, ?_⟩
  rw [remaining_of_getElem? hget] at h
  exact (List.cons.inj h).2

theorem lt_size_of_remaining (h : t.remaining i = c :: cs) : i < t.size :=
  lt_size_of_getElem? (getElem?_of_remaining h).1

theorem remaining_of_size_le (h : t.size ≤ i) : t.remaining i = [] :=
  List.drop_eq_nil_of_le (by rwa [Array.length_toList])

/-- Nothing remains from the end on only. -/
theorem size_le_of_remaining (h : t.remaining i = []) : t.size ≤ i := by
  have hlength := length_remaining t i
  rw [h, List.length_nil] at hlength
  omega

/-- Offsets of a text are told apart by what remains. -/
theorem eq_of_remaining (hi : i ≤ t.size) (hj : j ≤ t.size) (h : t.remaining i = t.remaining j) :
    i = j := by
  have hlength := congrArg List.length h
  rw [length_remaining, length_remaining] at hlength
  omega

theorem standsAt_of_remaining (h : t.remaining i = x ++ cs) :
    t.standsAt i x = true ∧ t.remaining (i + x.length) = cs := by
  induction x generalizing i with
  | nil => exact ⟨rfl, h⟩
  | cons c rest ih =>
    obtain ⟨hc, hrest⟩ := getElem?_of_remaining h
    obtain ⟨hstands, hleft⟩ := ih hrest
    refine ⟨standsAt_cons.mpr ⟨hc, hstands⟩, ?_⟩
    rwa [List.length_cons, Nat.add_comm rest.length, ← Nat.add_assoc]

theorem remaining_slice (t : Text) (h : i ≤ j) : t.remaining i = t.slice i j ++ t.remaining j := by
  have hsplit := (List.take_append_drop (j - i) (t.toList.drop i)).symm
  rwa [List.drop_drop, Nat.add_sub_cancel' h, ← slice_eq_take_drop] at hsplit

/-- What is skipped up to the next code is white space. -/
theorem remaining_nextCode (t : Text) (i limit : Nat) :
    ∃ a, (∀ c ∈ a, isSpace c = true) ∧ t.remaining i = a ++ t.remaining (t.nextCode i limit) := by
  refine ⟨t.slice i (t.nextCode i limit), fun c hc => ?_, remaining_slice t (le_nextCode t i limit)⟩
  obtain ⟨k, hk, hk', hget⟩ := mem_slice.mp hc
  rw [← testAt_of_getElem? hget isSpace]
  exact space_before_nextCode hk hk'

end Remaining

end MemberOrder.Text
