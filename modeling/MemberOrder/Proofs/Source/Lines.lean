/-
  Where the lines of a text are.

  A text is cut at the start of a line into what stands before and what follows, of which some is on
  the line (`IsLine`). The line starts where the text before it ends (`lineStart_eq`), and its offsets
  are those of no other line (`lineAt_eq`). The number of a line counts the line feeds before it
  (`lineAt_eq_count`).
-/
import MemberOrder.Source.Span

namespace MemberOrder

/-- A text that is cut at the start of a line, of which `line` is known. -/
structure IsLine (cs before line after : List Char) : Prop where
  eq : cs = before ++ (line ++ after)
  unbroken : '\n' ∉ line
  starts : before = [] ∨ before.getLast? = some '\n'

namespace Lines

theorem startsAfter_append (a b : List Char) (i : Nat) :
    startsAfter (a ++ b) i = startsAfter a i ++ startsAfter b (i + a.length) := by
  induction a generalizing i with
  | nil => rfl
  | cons c rest ih =>
    have hlength : i + 1 + rest.length = i + (c :: rest).length := by
      rw [List.length_cons]
      omega
    rw [List.cons_append, startsAfter, startsAfter, ih, hlength]
    split <;> rfl

theorem startsAfter_of_not_mem {line : List Char} (h : '\n' ∉ line) (i : Nat) :
    startsAfter line i = [] := by
  induction line generalizing i with
  | nil => rfl
  | cons c rest ih =>
    rw [List.mem_cons, not_or] at h
    rw [startsAfter, if_neg (by simpa using Ne.symm h.1), ih h.2]

theorem length_startsAfter (cs : List Char) (i : Nat) :
    (startsAfter cs i).length = cs.count '\n' := by
  induction cs generalizing i with
  | nil => rfl
  | cons c rest ih =>
    rw [startsAfter, List.count_cons]
    split
    · rw [List.length_cons, ih]
    · exact ih (i + 1)

theorem mem_startsAfter {cs : List Char} {i x : Nat} (h : x ∈ startsAfter cs i) :
    i < x ∧ x ≤ i + cs.length := by
  induction cs generalizing i with
  | nil => cases h
  | cons c rest ih =>
    rw [startsAfter] at h
    rw [List.length_cons]
    split at h
    · rcases List.mem_cons.mp h with rfl | h
      · omega
      · have := ih h
        omega
    · have := ih h
      omega

/-- The lines after one start past its end. -/
theorem lt_of_mem_startsAfter_line {line after : List Char} (hline : '\n' ∉ line) {i x : Nat}
    (h : x ∈ startsAfter (line ++ after) i) : i + line.length < x := by
  rw [startsAfter_append, startsAfter_of_not_mem hline, List.nil_append] at h
  exact (mem_startsAfter h).1

/-- A line starts after a line feed. -/
theorem break_of_mem_startsAfter {cs : List Char} {i x : Nat} (h : x ∈ startsAfter cs i) :
    cs[x - i - 1]? = some '\n' := by
  induction cs generalizing i with
  | nil => cases h
  | cons c rest ih =>
    have hrest : x ∈ startsAfter rest (i + 1) → (c :: rest)[x - i - 1]? = some '\n' := fun h => by
      have hlt := (mem_startsAfter h).1
      rw [show x - i - 1 = x - (i + 1) - 1 + 1 by omega, List.getElem?_cons_succ]
      exact ih h
    rw [startsAfter] at h
    split at h
    · rename_i hc
      rcases List.mem_cons.mp h with rfl | h
      · rw [show i + 1 - i - 1 = 0 by omega, List.getElem?_cons_zero, beq_iff_eq.mp hc]
      · exact hrest h
    · exact hrest h

theorem countP_startsAfter (cs : List Char) {i x : Nat} (h : i ≤ x) :
    (startsAfter cs i).countP (· ≤ x) = (cs.take (x - i)).count '\n' := by
  induction cs generalizing i with
  | nil => simp [startsAfter]
  | cons c rest ih =>
    rcases Nat.eq_or_lt_of_le h with rfl | hlt
    · rw [Nat.sub_self, List.take_zero, List.count_nil, List.countP_eq_zero]
      intro y hy
      have := (mem_startsAfter hy).1
      simp only [decide_eq_true_eq]
      omega
    · rw [startsAfter, show x - i = x - (i + 1) + 1 by omega, List.take_succ_cons, List.count_cons]
      split
      · rw [List.countP_cons_of_pos (by simpa using Nat.succ_le_of_lt hlt), ih hlt]
      · rw [ih hlt, Nat.add_zero]

/-- The line of an offset is counted by the line feeds before it. -/
theorem lineAt_eq_count (t : Text) (x : Nat) :
    (ofText t).lineAt x = (t.toList.take x).count '\n' + 1 := by
  rw [lineAt, ofText, List.countP_cons_of_pos (by simp), countP_startsAfter _ (Nat.zero_le x), Nat.sub_zero]

/-- Offsets with no line feed in between are on one line. -/
theorem lineAt_eq_lineAt {t : Text} {a b : Nat} (hab : a ≤ b)
    (h : ∀ x, a ≤ x → x < b → t[x]? ≠ some '\n') : (ofText t).lineAt a = (ofText t).lineAt b := by
  refine List.countP_congr fun x hx => ?_
  simp only [decide_eq_true_eq]
  rcases List.mem_cons.mp hx with rfl | hx
  · omega
  · have hfeed := break_of_mem_startsAfter hx
    have hpos := (mem_startsAfter hx).1
    rw [Array.getElem?_toList, Nat.sub_zero] at hfeed
    refine ⟨fun hle => by omega, fun hle => Nat.le_of_not_lt fun hlt => ?_⟩
    exact h (x - 1) (by omega) (by omega) hfeed

variable {t : Text} {before line after : List Char}

theorem starts_ofText (h : IsLine t.toList before line after) : (ofText t).starts =
    0 :: (startsAfter before 0 ++ startsAfter (line ++ after) before.length) := by
  unfold ofText
  rw [h.eq, startsAfter_append, Nat.zero_add]

/-- A line starts where the text before it ends. -/
theorem lineStart_eq (h : IsLine t.toList before line after) :
    (ofText t).lineStart (before.count '\n' + 1) = before.length := by
  have hcount : before.count '\n' + 1 ≤ (ofText t).count := by
    rw [count, starts_ofText h, List.length_cons, List.length_append, length_startsAfter]
    omega
  have hindex : min (max (before.count '\n' + 1) 1) (ofText t).count - 1 = before.count '\n' := by
    omega
  rw [lineStart, hindex, starts_ofText h]
  rcases h.starts with rfl | hlast
  · rfl
  · obtain ⟨first, rfl⟩ := List.getLast?_eq_some_iff.mp hlast
    have hfirst := length_startsAfter first 0
    have hstarts : startsAfter (first ++ ['\n']) 0 = startsAfter first 0 ++ [first.length + 1] := by
      rw [startsAfter_append, Nat.zero_add]
      rfl
    have hfeeds : (first ++ ['\n']).count '\n' = (startsAfter first 0).length + 1 := by
      rw [List.count_append, hfirst]
      rfl
    rw [hfeeds, hstarts, List.getD_cons_succ, List.append_assoc, List.getD_eq_getElem?_getD,
      List.getElem?_append_right (Nat.le_refl _), Nat.sub_self, List.length_append]
    rfl

/-- The offsets of a line, its end included, are those of no other. -/
theorem lineAt_eq (h : IsLine t.toList before line after) {offset : Nat}
    (hstart : before.length ≤ offset) (hstop : offset ≤ before.length + line.length) :
    (ofText t).lineAt offset = before.count '\n' + 1 := by
  have hbefore : (startsAfter before 0).countP (· ≤ offset) = (startsAfter before 0).length := by
    rw [List.countP_eq_length]
    intro x hx
    have := (mem_startsAfter hx).2
    rw [decide_eq_true_eq]
    omega
  have hafter : (startsAfter (line ++ after) before.length).countP (· ≤ offset) = 0 := by
    rw [List.countP_eq_zero]
    intro x hx
    have := lt_of_mem_startsAfter_line h.unbroken hx
    rw [decide_eq_true_eq]
    omega
  rw [lineAt, starts_ofText h, List.countP_cons_of_pos (by simp), List.countP_append, hbefore, hafter,
    length_startsAfter, Nat.add_zero]

end Lines

end MemberOrder
